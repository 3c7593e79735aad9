import Librfn.Console.Arguments

/-!
# Quoted arguments

A quote that is met at the start of an argument is always an opening quote,
also behind another one, and the loop stops at the first byte of the fourth
argument, before its closing quote.
-/

namespace Librfn

open Librfn.Logic

variable {W : Type}

/-- An argument as it is written on a line. -/
inductive Arg where
  | bare (word : List UInt8)
  | quoted (quote : UInt8) (text : List UInt8)
  deriving DecidableEq, Repr

def Arg.value : Arg → List UInt8
  | .bare word => word
  | .quoted _ text => text

def Arg.render : Arg → List UInt8
  | .bare word => word
  | .quoted quote text => quote :: (text ++ [quote])

def Arg.Valid : Arg → Prop
  | .bare word => word ≠ [] ∧
      ∀ b ∈ word, isspace b = false ∧ b ≠ 39 ∧ b ≠ 34 ∧ b ≠ 0
  | .quoted quote text => (quote = 39 ∨ quote = 34) ∧ text ≠ [] ∧
      quote ∉ text ∧ 0 ∉ text ∧ 10 ∉ text

def renderArgs (args : List Arg) : List UInt8 :=
  args.flatMap fun arg => 32 :: arg.render

def Arg.OpensOnce (arg : Arg) : Prop :=
  arg.value.head? ≠ some 39 ∧ arg.value.head? ≠ some 34

def Arg.IsBare : Arg → Prop
  | .bare _ => True
  | .quoted _ _ => False

instance : (arg : Arg) → Decidable arg.Valid
  | .bare word => @instDecidableAnd (word ≠ []) _ inferInstance (List.decidableBAll _ word)
  | .quoted _ _ => inferInstanceAs (Decidable (_ ∧ _ ∧ _ ∧ _ ∧ _))

instance (arg : Arg) : Decidable arg.OpensOnce := inferInstanceAs (Decidable (_ ∧ _))

/-- What the tokenizer leaves when it stops at the first byte. -/
def Arg.unfinished : Arg → List UInt8
  | .bare word => word
  | .quoted quote text => text ++ [quote]

theorem Arg.unfinished_eq_value {arg : Arg} :
    arg.unfinished = arg.value ↔ arg.IsBare := by
  cases arg <;> simp [unfinished, value, IsBare]

variable {more : Nat} {quote b : UInt8} {word rest : List UInt8} {arg : Arg}
  {args : List Arg}

theorem scan_keep (h : ∀ b ∈ word, b ≠ quote ∧ ¬ (isspace b = true ∧ quote = 0)) :
    scan more false quote (word ++ rest) =
      (word ++ (scan more false quote rest).1, (scan more false quote rest).2) := by
  induction word with
  | nil => rfl
  | cons b word ih =>
      obtain ⟨hb, hword⟩ := List.forall_mem_cons.mp h
      rw [List.cons_append, scan_cons]
      simp [hb.1, hb.2, ih hword, putByte]

theorem scan_opens (more : Nat) (start : Bool) (quote : UInt8) (rest : List UInt8) :
    ∀ str ∈ (scan more start quote rest).2, str.head? ≠ some 39 ∧ str.head? ≠ some 34 := by
  have hfirst : ∀ (b : UInt8) (bytes : List UInt8), ¬ (b = 39 ∨ b = 34) →
      ((b :: bytes).takeWhile (· ≠ 0)).head? ≠ some 39 ∧
        ((b :: bytes).takeWhile (· ≠ 0)).head? ≠ some 34 := by
    intro b bytes hb
    by_cases hzero : b = 0
    · simp [hzero]
    · simpa [hzero, not_or] using hb
  fun_induction scan more start quote rest with
  | case1 => simp
  | case2 => simpa
  | case3 => simpa
  | case4 => simpa
  | case5 quote b rest _ _ hb => simpa using hfirst b rest hb
  | case6 quote b rest _ _ hb more ih =>
      rw [putArg_snd]
      exact List.forall_mem_cons.mpr ⟨hfirst b _ hb, ih⟩
  | case7 => simpa

theorem scan_renderArgs_ends (more : Nat) (start : Bool) (args : List Arg) :
    (scan more start 0 (renderArgs args)).1.takeWhile (· ≠ 0) = [] := by
  cases args with
  | nil => rfl
  | cons arg args =>
      have hspace : isspace 32 = true := by decide
      simp [renderArgs, scan, hspace]

theorem scan_renderArgs_start (more : Nat) (start : Bool) (args : List Arg) :
    scan more start 0 (renderArgs args) = scan more true 0 (renderArgs args) := by
  cases args with
  | nil => simp [renderArgs, scan]
  | cons arg args =>
      have hspace : isspace 32 = true := by decide
      simp [renderArgs, scan, hspace]

theorem scan_first (hspace : ¬ (isspace b = true ∧ quote = 0)) (hb : b ≠ quote)
    (hopen : ¬ (b = 39 ∨ b = 34)) (more : Nat) (rest : List UInt8) :
    scan more true quote (b :: rest) = putArg b (match more with
      | 0 => (rest, [])
      | more + 1 => scan more false quote rest) := by
  rw [scan_cons]
  simp only [hspace, if_false, hb, if_true, hopen]
  cases more <;> rfl

theorem takeWhile_arg {bytes : List UInt8} (hnul : 0 ∉ word)
    (hends : bytes.takeWhile (· ≠ 0) = []) :
    (word ++ bytes).takeWhile (· ≠ 0) = word := by
  have hword : ∀ x ∈ word, (x ≠ 0 : Bool) = true := by
    intro x hx
    exact decide_eq_true fun heq => hnul (heq ▸ hx)
  rw [List.takeWhile_append_of_pos hword, hends, List.append_nil]

theorem scan_open (hquote : quote = 39 ∨ quote = 34) (more : Nat)
    (rest : List UInt8) :
    scan more true 0 (quote :: rest) = putByte 0 (scan more true quote rest) := by
  have hspace : isspace quote = false := by rcases hquote with rfl | rfl <;> decide
  have hne : quote ≠ 0 := by rcases hquote with rfl | rfl <;> decide
  rw [scan_cons]
  simp [hspace, hne, hquote]

theorem scan_close (hquote : quote = 39 ∨ quote = 34) (more : Nat)
    (rest : List UInt8) :
    scan more false quote (quote :: rest) = putByte 0 (scan more true 0 rest) := by
  have hne : quote ≠ 0 := by rcases hquote with rfl | rfl <;> decide
  rw [scan_cons]
  simp [hne]

theorem Arg.Valid.bare_cons (h : (Arg.bare word).Valid) : ∃ b rest, word = b :: rest ∧
    0 ∉ word ∧ (isspace b = false ∧ ¬ (b = 39 ∨ b = 34) ∧ b ≠ 0) ∧
      ∀ x ∈ rest, isspace x = false ∧ x ≠ 0 := by
  obtain ⟨hne, hword⟩ := h
  obtain ⟨b, rest, rfl⟩ := List.exists_cons_of_ne_nil hne
  have hnul : 0 ∉ b :: rest := fun hmem => (hword 0 hmem).2.2.2 rfl
  obtain ⟨⟨hspace, hsingle, hdouble, hb⟩, hrest⟩ := List.forall_mem_cons.mp hword
  exact ⟨b, rest, rfl, hnul, ⟨hspace, by simp [hsingle, hdouble], hb⟩,
    fun x hx => ⟨(hrest x hx).1, (hrest x hx).2.2.2⟩⟩

theorem Arg.Valid.quoted_cons {text : List UInt8} (h : (Arg.quoted quote text).Valid)
    (hopen : (Arg.quoted quote text).OpensOnce) : ∃ b rest, text = b :: rest ∧
      ¬ (b = 39 ∨ b = 34) ∧ quote ≠ 0 ∧ b ≠ quote ∧ quote ∉ rest := by
  obtain ⟨hquote, hne, hmem, -⟩ := h
  obtain ⟨b, rest, rfl⟩ := List.exists_cons_of_ne_nil hne
  rw [List.mem_cons, not_or] at hmem
  have hzero : quote ≠ 0 := by rcases hquote with rfl | rfl <;> decide
  exact ⟨b, rest, rfl, by simpa [Arg.OpensOnce, Arg.value, not_or] using hopen, hzero,
    Ne.symm hmem.1, hmem.2⟩

theorem scan_arg (h : arg.Valid) (hopen : arg.OpensOnce) (args : List Arg) :
    (scan (more + 1) true 0 (arg.render ++ renderArgs args)).2 =
      arg.value :: (scan more true 0 (renderArgs args)).2 := by
  cases arg with
  | bare word =>
      obtain ⟨b, word, rfl, hnul, ⟨hspace, hquote, hb⟩, hword⟩ := h.bare_cons
      have hkeep : ∀ x ∈ word, x ≠ 0 ∧ ¬ (isspace x = true ∧ (0 : UInt8) = 0) := by
        intro x hx
        simp [hword x hx]
      rw [Arg.render, List.cons_append, scan_first (by simp [hspace]) hb hquote]
      simp only [scan_keep hkeep, putArg_snd]
      rw [← List.cons_append, takeWhile_arg hnul (scan_renderArgs_ends _ _ _),
        scan_renderArgs_start]
      rfl
  | quoted quote text =>
      obtain ⟨b, text, rfl, hb, hzero, hne, hmem⟩ := h.quoted_cons hopen
      obtain ⟨hquote, -, -, hnul, -⟩ := h
      have hkeep : ∀ x ∈ text, x ≠ quote ∧ ¬ (isspace x = true ∧ quote = 0) := by
        intro x hx
        exact ⟨fun heq => hmem (heq ▸ hx), fun h => hzero h.2⟩
      simp only [Arg.render, List.cons_append, List.append_assoc, List.nil_append,
        scan_open hquote, scan_first (fun h => hzero h.2) hne hb,
        scan_keep hkeep, scan_close hquote, putByte_snd, putByte_fst, putArg_snd]
      rw [← List.cons_append, takeWhile_arg hnul (by simp)]
      rfl

theorem scan_arg_last (h : arg.Valid) (hopen : arg.OpensOnce) :
    (scan 0 true 0 arg.render).2 = [arg.unfinished] := by
  cases arg with
  | bare word =>
      obtain ⟨b, word, rfl, hnul, ⟨hspace, hquote, hb⟩, -⟩ := h.bare_cons
      have hall := takeWhile_arg hnul List.takeWhile_nil
      rw [List.append_nil] at hall
      rw [Arg.render, scan_first (by simp [hspace]) hb hquote, putArg_snd]
      simp only [hall]
      rfl
  | quoted quote text =>
      obtain ⟨b, text, rfl, hb, hzero, hne, -⟩ := h.quoted_cons hopen
      obtain ⟨hquote, -, -, hnul, -⟩ := h
      have hnul' : 0 ∉ b :: text ++ [quote] := by
        simp only [List.mem_append, List.mem_singleton, not_or]
        exact ⟨hnul, Ne.symm hzero⟩
      have hall := takeWhile_arg hnul' List.takeWhile_nil
      rw [List.append_nil] at hall
      simp only [Arg.render, List.cons_append, scan_open hquote,
        scan_first (fun h => hzero h.2) hne hb, putByte_snd, putArg_snd]
      rw [← List.cons_append, hall]
      rfl

theorem scan_renderArgs (more : Nat) (start : Bool) (hvalid : ∀ arg ∈ args, arg.Valid)
    (hopen : ∀ arg ∈ args, arg.OpensOnce) (hcount : args.length ≤ more + 1) :
    (scan more start 0 (renderArgs args)).2 =
      (args.take more).map Arg.value ++ (args.drop more).map Arg.unfinished := by
  induction args generalizing more start with
  | nil => simp [renderArgs, scan]
  | cons arg args ih =>
      obtain ⟨hfirst, hvalid⟩ := List.forall_mem_cons.mp hvalid
      obtain ⟨hfirstOpen, hopen⟩ := List.forall_mem_cons.mp hopen
      have hspace : isspace 32 = true := by decide
      have hnext : (scan more start 0 (renderArgs (arg :: args))).2 =
          (scan more true 0 (arg.render ++ renderArgs args)).2 := by
        rw [renderArgs, List.flatMap_cons, List.cons_append, scan_cons]
        simp [hspace, renderArgs]
      rw [List.length_cons] at hcount
      rw [hnext]
      cases more with
      | zero =>
          have hnone : args = [] := List.length_eq_zero_iff.mp (by omega)
          subst hnone
          simpa [renderArgs] using scan_arg_last hfirst hfirstOpen
      | succ more =>
          rw [scan_arg hfirst hfirstOpen, ih more true hvalid hopen (by omega)]
          rfl

theorem arguments_renderArgs {first : List UInt8} (hfirst : (Arg.bare first).Valid)
    (args : List Arg) : arguments (first ++ renderArgs args) =
      first :: (scan 2 false 0 (renderArgs args)).2 := by
  obtain ⟨hne, hword⟩ := hfirst
  cases first with
  | nil => exact absurd rfl hne
  | cons b word =>
      have hnul : 0 ∉ b :: word := fun hmem => (hword 0 hmem).2.2.2 rfl
      have hkeep : ∀ x ∈ word, x ≠ 0 ∧ ¬ (isspace x = true ∧ (0 : UInt8) = 0) := by
        intro x hx
        simp [hword x (List.mem_cons_of_mem b hx)]
      have hall := takeWhile_arg hnul (scan_renderArgs_ends 2 false args)
      rw [List.cons_append] at hall
      simp only [arguments, List.cons_append, List.tail_cons, scan_keep hkeep,
        List.take_succ_cons, List.take_zero, List.nil_append, hall]

/-- The arguments come back exactly if none that is quoted begins with a quote,
and none behind the third is quoted. -/
theorem arguments_eq_iff {first : List UInt8} (hfirst : (Arg.bare first).Valid)
    (hvalid : ∀ arg ∈ args, arg.Valid) (hcount : args.length ≤ 3) :
    arguments (first ++ renderArgs args) = first :: args.map Arg.value ↔
      (∀ arg ∈ args, arg.OpensOnce) ∧ ∀ arg ∈ args.drop 2, arg.IsBare := by
  rw [arguments_renderArgs hfirst, List.cons_inj_right]
  constructor
  · intro heq
    have hopen : ∀ arg ∈ args, arg.OpensOnce := by
      intro arg harg
      have hmem := List.mem_map_of_mem (f := Arg.value) harg
      rw [← heq] at hmem
      exact scan_opens _ _ _ _ _ hmem
    refine ⟨hopen, ?_⟩
    have hsplit : args.map Arg.value =
        (args.take 2).map Arg.value ++ (args.drop 2).map Arg.value := by
      rw [← List.map_append, List.take_append_drop]
    rw [scan_renderArgs 2 false hvalid hopen hcount, hsplit,
      List.append_cancel_left_eq, List.map_inj_left] at heq
    exact fun arg harg => Arg.unfinished_eq_value.mp (heq arg harg)
  · rintro ⟨hopen, hbare⟩
    rw [scan_renderArgs 2 false hvalid hopen hcount]
    have hlast : (args.drop 2).map Arg.unfinished = (args.drop 2).map Arg.value :=
      List.map_congr_left fun arg harg => Arg.unfinished_eq_value.mpr (hbare arg harg)
    rw [hlast, ← List.map_append, List.take_append_drop]

/-- The arguments of a line survive exactly if no quoted one begins with the
other quote, and the fourth is not quoted. -/
theorem quoted_args_iff {first : List UInt8} (hfirst : (Arg.bare first).Valid)
    (hvalid : ∀ arg ∈ args, arg.Valid) (hcount : args.length ≤ 3) {c : Console W}
    (h : HoldsString c 0 (first ++ renderArgs args)) :
    ∃ c', doTokenize c = .ok (first ++ renderArgs args, c') ∧
      ((c'.argc = args.length + 1 ∧
        ∀ k str, (first :: args.map Arg.value)[k]? = some str →
          HoldsString c' (c'.argv k) str) ↔
      (∀ arg ∈ args, arg.OpensOnce) ∧ ∀ arg ∈ args.drop 2, arg.IsBare) := by
  obtain ⟨_, c', heq, rfl, hargc, hargv⟩ :=
    Prog.wp_iff_exists.mp (doTokenize_arguments h)
  refine ⟨c', heq, ?_⟩
  rw [← arguments_eq_iff hfirst hvalid hcount]
  constructor
  · rintro ⟨hcountEq, hstrings⟩
    apply List.ext_getElem?
    intro k
    by_cases hk : k < args.length + 1
    · have hlt : k < (arguments (first ++ renderArgs args)).length := by omega
      have hlt' : k < (first :: args.map Arg.value).length := by simpa using hk
      have hfound := hargv k (by omega)
      have hwanted := hstrings k _ (List.getElem?_eq_getElem hlt')
      rw [List.getElem?_eq_getElem hlt, Option.getD_some] at hfound
      rw [List.getElem?_eq_getElem hlt, List.getElem?_eq_getElem hlt',
        hfound.unique hwanted]
    · rw [List.getElem?_eq_none (by omega),
        List.getElem?_eq_none (by simpa using Nat.le_of_not_lt hk)]
  · intro hargs
    rw [hargs] at hargc hargv
    refine ⟨by simpa using hargc, fun k str hstr => ?_⟩
    obtain ⟨hlt, -⟩ := List.getElem?_eq_some_iff.mp hstr
    have hfound := hargv k (by simp at hlt; omega)
    rwa [hstr, Option.getD_some] at hfound

/-- `say "it's" 'so'`. -/
theorem quoted_args_iff_two : ∃ c',
    doTokenize (typed ([115, 97, 121] ++ renderArgs
      [.quoted 34 [105, 116, 39, 115], .quoted 39 [115, 111]])) =
        .ok ([115, 97, 121] ++ renderArgs
          [.quoted 34 [105, 116, 39, 115], .quoted 39 [115, 111]], c') ∧
    c'.argc = 3 ∧ HoldsString c' (c'.argv 1) [105, 116, 39, 115] := by
  obtain ⟨c', heq, hiff⟩ := quoted_args_iff (by decide) (by decide) (by decide)
    (holdsString_typed ([115, 97, 121] ++ renderArgs
      [.quoted 34 [105, 116, 39, 115], .quoted 39 [115, 111]]) (by decide) (by decide))
  obtain ⟨hargc, hstrings⟩ := hiff.mpr ⟨by decide, by simp⟩
  exact ⟨c', heq, hargc, hstrings 1 _ rfl⟩

/-- The fourth argument of `a b c 'd'` is `d'`, and the second of `a '"b"'` is
`b`. -/
theorem quoted_args_broken :
    (∀ arg ∈ [Arg.bare [97], .bare [98], .bare [99], .quoted 39 [100],
      .quoted 39 [34, 98, 34]], arg.Valid) ∧
    (∃ c', doTokenize (typed ([97] ++
        renderArgs [.bare [98], .bare [99], .quoted 39 [100]])) =
          .ok ([97] ++ renderArgs [.bare [98], .bare [99], .quoted 39 [100]], c') ∧
      HoldsString c' (c'.argv 3) [100, 39] ∧ ¬ HoldsString c' (c'.argv 3) [100]) ∧
    ∃ c', doTokenize (typed ([97] ++ renderArgs [.quoted 39 [34, 98, 34]])) =
        .ok ([97] ++ renderArgs [.quoted 39 [34, 98, 34]], c') ∧
      HoldsString c' (c'.argv 1) [98] ∧
      ¬ HoldsString c' (c'.argv 1) [34, 98, 34] := by
  refine ⟨by decide, ?_, ?_⟩
  · obtain ⟨_, c', heq, rfl, -, hargv⟩ := Prog.wp_iff_exists.mp (doTokenize_arguments
      (holdsString_typed ([97] ++ renderArgs [.bare [98], .bare [99], .quoted 39 [100]])
        (by decide) (by decide)))
    have hlast : HoldsString c' (c'.argv 3) [100, 39] := hargv 3 (by decide)
    exact ⟨c', heq, hlast, fun h => absurd (h.unique hlast) (by decide)⟩
  · obtain ⟨_, c', heq, rfl, -, hargv⟩ := Prog.wp_iff_exists.mp (doTokenize_arguments
      (holdsString_typed ([97] ++ renderArgs [.quoted 39 [34, 98, 34]])
        (by decide) (by decide)))
    have hlast : HoldsString c' (c'.argv 1) [98] := hargv 1 (by decide)
    exact ⟨c', heq, hlast, fun h => absurd (h.unique hlast) (by decide)⟩

end Librfn
