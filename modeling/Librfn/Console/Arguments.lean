import Librfn.Console.Tokenizer

/-!
# The arguments of a line

What the tokenizer makes of a line, as a function of the line.  The buffer is
overwritten while it is read, but only behind the place where it is read next.
-/

namespace Librfn

open Librfn.Logic

variable {W : Type}

def putByte (b : UInt8) (r : List UInt8 × List (List UInt8)) :
    List UInt8 × List (List UInt8) := (b :: r.1, r.2)

def putArg (b : UInt8) (r : List UInt8 × List (List UInt8)) :
    List UInt8 × List (List UInt8) :=
  (b :: r.1, (b :: r.1).takeWhile (· ≠ 0) :: r.2)

@[simp] theorem putByte_fst (b : UInt8) (r : List UInt8 × List (List UInt8)) :
    (putByte b r).1 = b :: r.1 := rfl

@[simp] theorem putByte_snd (b : UInt8) (r : List UInt8 × List (List UInt8)) :
    (putByte b r).2 = r.2 := rfl

@[simp] theorem putArg_fst (b : UInt8) (r : List UInt8 × List (List UInt8)) :
    (putArg b r).1 = b :: r.1 := rfl

@[simp] theorem putArg_snd (b : UInt8) (r : List UInt8 × List (List UInt8)) :
    (putArg b r).2 = (b :: r.1).takeWhile (· ≠ 0) :: r.2 := rfl

/-- What the first loop of `do_tokenize` leaves in place of some bytes, and the
arguments that it finds in them.  It is at the `start` of a token if the byte
before is `NUL`, and stops at an argument that no `more` may follow. -/
def scan (more : Nat) (start : Bool) (quote : UInt8) :
    List UInt8 → List UInt8 × List (List UInt8)
  | [] => ([], [])
  | b :: rest =>
      if isspace b ∧ quote = 0 then
        putByte 0 (scan more true quote rest)
      else if b = quote then
        putByte 0 (scan more true 0 rest)
      else if start then
        if b = 39 ∨ b = 34 then
          putByte 0 (scan more true b rest)
        else match more with
          | 0 => putArg b (rest, [])
          | more + 1 => putArg b (scan more false quote rest)
      else
        putByte b (scan more false quote rest)

def arguments (line : List UInt8) : List (List UInt8) :=
  let r := scan 2 false 0 line.tail
  (line.take 1 ++ r.1).takeWhile (· ≠ 0) :: r.2

theorem scan_cons (more : Nat) (start : Bool) (quote b : UInt8) (rest : List UInt8) :
    scan more start quote (b :: rest) =
      if isspace b ∧ quote = 0 then putByte 0 (scan more true quote rest)
      else if b = quote then putByte 0 (scan more true 0 rest)
      else if start then
        if b = 39 ∨ b = 34 then putByte 0 (scan more true b rest)
        else match more with
          | 0 => putArg b (rest, [])
          | more + 1 => putArg b (scan more false quote rest)
      else putByte b (scan more false quote rest) := scan.eq_def more start quote (b :: rest)

theorem length_scan (more : Nat) (start : Bool) (quote : UInt8) (rest : List UInt8) :
    (scan more start quote rest).1.length = rest.length := by
  fun_induction scan more start quote rest <;> simp_all

/-! ## The loop scans the buffer -/

/-- From `c` to `c'` the bytes from `i` on have been scanned. -/
structure Scanned (i : Nat) (r : List UInt8 × List (List UInt8))
    (c c' : Console W) : Prop where
  argc : c'.argc = c.argc + r.2.length
  bytes : ∀ k (h : k < r.1.length), c'.scratch (i + k) = r.1[k]
  elsewhere : ∀ k, k < i ∨ i + r.1.length ≤ k → c'.scratch k = c.scratch k
  argv : ∀ j < c.argc, c'.argv j = c.argv j
  args : ∀ j (h : j < r.2.length), HoldsString c' (c'.argv (c.argc + j)) r.2[j]

section Scanned

variable {c c' c₁ : Console W} {i : Nat} {b : UInt8} {rest : List UInt8}
  {r : List UInt8 × List (List UInt8)}

theorem holdsString_takeWhile {bytes : List UInt8}
    (hbytes : ∀ k (h : k < bytes.length), c.scratch (i + k) = bytes[k])
    (hend : c.scratch (i + bytes.length) = 0)
    (hroom : i + bytes.length < scratchSize) :
    HoldsString c i (bytes.takeWhile (· ≠ 0)) := by
  induction bytes generalizing i with
  | nil => exact holdsString_nil.mpr ⟨hroom, hend⟩
  | cons b bytes ih =>
      have hshift : ∀ k, i + 1 + k = i + (k + 1) := by omega
      have hfirst := hbytes 0 (Nat.succ_pos _)
      rw [List.length_cons] at hend hroom
      by_cases hb : b = 0
      · subst hb
        simpa using holdsString_nil.mpr ⟨by omega, hfirst⟩
      · have hrest : HoldsString c (i + 1) (bytes.takeWhile (· ≠ 0)) := by
          refine ih (fun k hk => ?_) (by rw [hshift, hend]) (by omega)
          rw [hshift]
          exact hbytes (k + 1) (Nat.succ_lt_succ hk)
        simpa [hb] using holdsString_cons.mpr ⟨⟨hfirst, hb⟩, hrest⟩

theorem Scanned.nil (c : Console W) (i : Nat) : Scanned i ([], []) c c where
  argc := rfl
  bytes := nofun
  elsewhere := fun _ _ => rfl
  argv := fun _ _ => rfl
  args := nofun

theorem Scanned.cons (h : Scanned (i + 1) r c₁ c')
    (hscratch : c₁.scratch = Function.update c.scratch i b)
    (hargc : c₁.argc = c.argc) (hargv : c₁.argv = c.argv) :
    Scanned i (putByte b r) c c' where
  argc := by rw [h.argc, hargc, putByte_snd]
  bytes := by
    intro k hk
    cases k with
    | zero =>
        rw [h.elsewhere _ (by omega), hscratch]
        exact Function.update_self _ _ _
    | succ k =>
        have hbyte := h.bytes k (by simpa using hk)
        rwa [show i + (k + 1) = i + 1 + k by omega]
  elsewhere := by
    intro k hk
    rw [putByte_fst, List.length_cons] at hk
    rw [h.elsewhere k (by omega), hscratch]
    exact Function.update_of_ne (by omega) _ _
  argv := by
    intro j hj
    rw [h.argv j (by omega), hargv]
  args := by
    intro j hj
    rw [← hargc]
    exact h.args j hj

theorem Scanned.argument
    (h : Scanned (i + 1) r { c with
      argc := c.argc + 1, argv := Function.update c.argv c.argc i } c')
    (hfirst : c.scratch i = b) (hend : c.scratch (i + (r.1.length + 1)) = 0)
    (hroom : i + (r.1.length + 1) < scratchSize) :
    Scanned i (putArg b r) c c' := by
  have hbytes : Scanned i (putByte b r) { c with
      argc := c.argc + 1, argv := Function.update c.argv c.argc i } c' := by
    refine h.cons ?_ rfl rfl
    rw [← hfirst]
    exact (Function.update_eq_self i c.scratch).symm
  have hargv : c'.argv c.argc = i := by
    rw [h.argv c.argc (Nat.lt_succ_self _)]
    exact Function.update_self _ _ _
  refine ⟨?_, hbytes.bytes, hbytes.elsewhere, ?_, ?_⟩
  · rw [h.argc, putArg_snd, List.length_cons]
    simp only
    omega
  · intro j hj
    rw [h.argv j (Nat.lt_succ_of_lt hj)]
    exact Function.update_of_ne (by omega) _ _
  · intro j hj
    cases j with
    | zero =>
        rw [Nat.add_zero, hargv]
        refine holdsString_takeWhile hbytes.bytes ?_ hroom
        have hstop := hbytes.elsewhere (i + (r.1.length + 1)) (.inr (Nat.le_refl _))
        exact hstop.trans hend
    | succ j =>
        have harg := h.args j (by simpa using hj)
        rwa [Nat.add_assoc, Nat.add_comm 1 j] at harg

theorem HoldsString.congr {offset : Nat} {str : List UInt8}
    (h : HoldsString c offset str) (hsame : ∀ k, offset ≤ k → c'.scratch k = c.scratch k) :
    HoldsString c' offset str := by
  refine ⟨h.1, ?_, fun k hk => ?_⟩
  · rw [hsame _ (Nat.le_add_right _ _), h.2.1]
  · rw [hsame _ (Nat.le_add_right _ _)]
    exact h.2.2 k hk

theorem tokenizeLoop_scan {len fuel more : Nat} {quote : UInt8}
    (h : HoldsString c i rest) (hlen : len = i + rest.length) (hi : 1 ≤ i)
    (hmore : c.argc + more = 3) (hfuel : rest.length < fuel) :
    Prog.wp (tokenizeLoop len fuel i quote) (fun _ c' =>
      Scanned i (scan more (c.scratch (i - 1) = 0) quote rest) c c') c := by
  induction rest generalizing c i fuel more quote with
  | nil =>
      obtain ⟨fuel, rfl⟩ : ∃ k, fuel = k + 1 := ⟨fuel - 1, by omega⟩
      rw [tokenizeLoop]
      simp only [hlen, List.length_nil, Nat.add_zero, Nat.lt_irrefl,
        not_false_eq_true, if_true, Prog.wp_pure, scan]
      exact .nil c i
  | cons b rest ih =>
      have hroom := h.1
      have hend := h.2.1
      obtain ⟨⟨hfirst, hne⟩, hrest⟩ := holdsString_cons.mp h
      rw [List.length_cons] at hfuel hlen hroom hend
      obtain ⟨fuel, rfl⟩ : ∃ k, fuel = k + 1 := ⟨fuel - 1, by omega⟩
      have hfuel' : rest.length < fuel := by omega
      have hlen' : len = i + 1 + rest.length := by omega
      have hargc : c.argc < 4 := by omega
      -- the byte is made a `NUL`
      have hzero : ∀ quote, Prog.wp (tokenizeLoop len fuel (i + 1) quote)
          (fun _ c' => Scanned i (putByte 0 (scan more true quote rest)) c c')
          { c with scratch := Function.update c.scratch i 0 } := by
        intro quote
        have hrest' : HoldsString { c with scratch := Function.update c.scratch i 0 }
            (i + 1) rest :=
          hrest.congr fun k hk => Function.update_of_ne (by omega) _ _
        refine Prog.wp_mono (ih hrest' hlen' (Nat.succ_pos i) hmore hfuel') ?_
        intro _ c' hscan
        simp only [Nat.add_sub_cancel, Function.update_self, decide_true] at hscan
        exact hscan.cons rfl rfl rfl
      have hstay : ∀ {c₁ : Console W} {more : Nat}, c₁.scratch = c.scratch →
          c₁.argc + more = 3 → Prog.wp (tokenizeLoop len fuel (i + 1) quote)
            (fun _ c' => Scanned (i + 1) (scan more false quote rest) c₁ c') c₁ := by
        intro c₁ more hsame hmore
        have hrest' : HoldsString c₁ (i + 1) rest := hrest.congr fun k _ => by rw [hsame]
        refine Prog.wp_mono (ih hrest' hlen' (Nat.succ_pos i) hmore hfuel') ?_
        intro _ c' hscan
        rwa [Nat.add_sub_cancel, hsame, hfirst, decide_eq_false hne] at hscan
      rw [wp_tokenizeLoop_succ (by omega) (by omega) hargc, hfirst, scan_cons]
      by_cases hspace : isspace b ∧ quote = 0
      · rw [if_pos hspace, if_pos hspace]
        exact hzero quote
      rw [if_neg hspace, if_neg hspace]
      by_cases hquote : b = quote
      · rw [if_pos hquote, if_pos hquote]
        exact hzero 0
      rw [if_neg hquote, if_neg hquote]
      by_cases hstart : c.scratch (i - 1) = 0
      · rw [if_pos hstart, if_pos (decide_eq_true hstart)]
        by_cases hopen : b = 39 ∨ b = 34
        · rw [if_pos hopen, if_pos hopen]
          exact hzero b
        rw [if_neg hopen, if_neg hopen]
        cases more with
        | zero =>
            rw [if_pos (by omega)]
            refine Scanned.argument ⟨rfl, ?_, fun _ _ => rfl, fun _ _ => rfl, by simp⟩
              hfirst hend hroom
            intro k hk
            exact (hrest.2.2 k hk).1
        | succ more =>
            rw [if_neg (by omega)]
            have hargs : c.argc + 1 + more = 3 := by omega
            refine Prog.wp_mono (hstay rfl hargs) ?_
            intro _ c' hscan
            have hlength := length_scan more false quote rest
            exact hscan.argument hfirst (by rw [hlength, hend])
              (by rw [hlength]; exact hroom)
      · have hnot : ¬ decide (c.scratch (i - 1) = 0) = true := by rwa [decide_eq_true_eq]
        rw [if_neg hstart, if_neg hnot]
        refine Prog.wp_mono (hstay rfl hmore) ?_
        intro _ c' hscan
        refine hscan.cons ?_ rfl rfl
        rw [← hfirst]
        exact (Function.update_eq_self i c.scratch).symm

end Scanned

def typed (line : List UInt8) : Console Unit :=
  { consoleInit () with scratch := fun k => line.getD k 0 }

theorem holdsString_typed (text : List UInt8) (hroom : text.length < scratchSize)
    (hnul : 0 ∉ text) : HoldsString (typed text) 0 text := by
  refine ⟨by simpa using hroom, by simp [typed], fun k hk => ?_⟩
  have hbyte : text[k] ≠ 0 := fun heq => hnul (heq ▸ List.getElem_mem hk)
  exact ⟨by simp [typed, hk], hbyte⟩

/-- `do_tokenize` sets up the arguments, and empty strings behind them. -/
theorem doTokenize_arguments {c : Console W} {line : List UInt8}
    (h : HoldsString c 0 line) :
    Prog.wp doTokenize (fun line' c' => line' = line ∧
      c'.argc = (arguments line).length ∧
      ∀ k < 4, HoldsString c' (c'.argv k) ((arguments line)[k]?.getD [])) c := by
  have hroom := h.1
  let c₁ : Console W := { c with argc := 1, argv := Function.update c.argv 0 0 }
  have hline : HoldsString c₁ 0 line := h
  simp only [doTokenize, Prog.wp_bind, Prog.wp_modify, Prog.wp_get,
    wp_storeArgv _ (by omega : 0 < 4)]
  rw [wp_loadString hline (by omega)]
  have hscan : Prog.wp (tokenizeLoop line.length (scratchSize + 1) 1 0) (fun _ c' =>
      Scanned 0 (line.take 1 ++ (scan 2 false 0 line.tail).1,
        (scan 2 false 0 line.tail).2) c₁ c') c₁ := by
    cases line with
    | nil =>
        refine Prog.wp_of_eq rfl ?_
        exact .nil c₁ 0
    | cons b rest =>
        rw [List.length_cons] at hroom
        obtain ⟨⟨hfirst, hne⟩, hrest⟩ := holdsString_cons.mp hline
        refine Prog.wp_mono (tokenizeLoop_scan hrest (Nat.add_comm _ _)
          (Nat.le_refl 1) (by rfl : c₁.argc + 2 = 3) (by omega)) ?_
        intro _ c' hscan
        rw [Nat.sub_self, hfirst, decide_eq_false hne] at hscan
        refine hscan.cons ?_ rfl rfl
        rw [← hfirst]
        exact (Function.update_eq_self 0 c₁.scratch).symm
  refine Prog.wp_mono hscan ?_
  intro _ c₂ hscan
  have hlength : (line.take 1 ++ (scan 2 false 0 line.tail).1).length = line.length := by
    cases line <;> simp [length_scan]
  have hend : c₂.scratch line.length = 0 := by
    rw [hscan.elsewhere line.length (.inr (by simp only [hlength]; omega))]
    simpa using h.2.1
  have hargc : c₂.argc = (arguments line).length := by
    rw [hscan.argc, arguments, List.length_cons, Nat.add_comm]
  have hargv : c₂.argv 0 = 0 := (hscan.argv 0 Nat.zero_lt_one).trans
    (Function.update_self 0 0 c.argv)
  have hfound : ∀ k < c₂.argc, HoldsString c₂ (c₂.argv k)
      ((arguments line)[k]?.getD []) := by
    intro k hk
    cases k with
    | zero =>
        rw [hargv]
        refine holdsString_takeWhile hscan.bytes ?_ (by rw [hlength]; omega)
        rw [hlength, Nat.zero_add, hend]
    | succ j =>
        rw [hargc] at hk
        have hj : j < (scan 2 false 0 line.tail).2.length := Nat.lt_of_succ_lt_succ hk
        have harg := hscan.args j hj
        rw [show c₁.argc + j = j + 1 from Nat.add_comm 1 j] at harg
        simpa [arguments, List.getElem?_eq_getElem hj] using harg
  refine Prog.wp_mono (terminateLoop_spec (by omega)) ?_
  rintro _ _ rfl
  refine ⟨rfl, hargc, fun k hk => ?_⟩
  by_cases hmore : c₂.argc ≤ k
  · simp only [hmore, hk, and_self, if_true]
    rw [hargc] at hmore
    rw [List.getElem?_eq_none hmore]
    exact holdsString_nil.mpr ⟨by omega, hend⟩
  · simp only [hmore, false_and, if_false]
    exact hfound k (Nat.lt_of_not_le hmore)

end Librfn
