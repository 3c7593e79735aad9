import Librfn.Console.Register
import Mathlib.Data.List.Basic

/-!
# What the tokenizer leaves alone

`do_tokenize` and `find_command` return, and change nothing but the scratch
buffer, where they only write zeros, the arguments and the command.
-/

namespace Librfn

open Librfn.Logic

variable {W : Type}

/-- The string `str` is at an offset of the scratch buffer. -/
def HoldsString (c : Console W) (offset : Nat) (str : List UInt8) : Prop :=
  offset + str.length < scratchSize ∧ c.scratch (offset + str.length) = 0 ∧
    ∀ k (h : k < str.length), c.scratch (offset + k) = str[k] ∧ str[k] ≠ 0

theorem holdsString_nil {c : Console W} {offset : Nat} :
    HoldsString c offset [] ↔ offset < scratchSize ∧ c.scratch offset = 0 := by
  simp [HoldsString]

theorem holdsString_cons {c : Console W} {offset : Nat} {b : UInt8}
    {str : List UInt8} : HoldsString c offset (b :: str) ↔
      (c.scratch offset = b ∧ b ≠ 0) ∧ HoldsString c (offset + 1) str := by
  have hshift : ∀ k, offset + (k + 1) = offset + 1 + k := by omega
  have hlength : offset + (b :: str).length = offset + 1 + str.length :=
    hshift str.length
  unfold HoldsString
  rw [hlength]
  constructor
  · rintro ⟨hroom, hend, hbytes⟩
    refine ⟨hbytes 0 (Nat.succ_pos _), hroom, hend, fun k hk => ?_⟩
    have hbyte := hbytes (k + 1) (Nat.succ_lt_succ hk)
    rwa [List.getElem_cons_succ, hshift k] at hbyte
  · rintro ⟨hfirst, hroom, hend, hbytes⟩
    refine ⟨hroom, hend, fun k hk => ?_⟩
    cases k with
    | zero => exact hfirst
    | succ k =>
        rw [List.getElem_cons_succ, hshift k]
        exact hbytes k (Nat.lt_of_succ_lt_succ hk)

theorem HoldsString.unique {c : Console W} {offset : Nat} {str str' : List UInt8}
    (h : HoldsString c offset str) (h' : HoldsString c offset str') : str = str' := by
  induction str generalizing offset str' with
  | nil =>
      have hend := (holdsString_nil.mp h).2
      cases str' with
      | nil => rfl
      | cons b str' =>
          obtain ⟨⟨hfirst, hne⟩, -⟩ := holdsString_cons.mp h'
          exact absurd (hfirst.symm.trans hend) hne
  | cons b str ih =>
      obtain ⟨⟨hfirst, hne⟩, hrest⟩ := holdsString_cons.mp h
      cases str' with
      | nil => exact absurd (hfirst.symm.trans (holdsString_nil.mp h').2) hne
      | cons b' str' =>
          obtain ⟨⟨hfirst', -⟩, hrest'⟩ := holdsString_cons.mp h'
          rw [ih hrest hrest', ← hfirst, hfirst']

theorem wp_loadBuf (c : Console W) {i : Nat} (hi : i < scratchSize)
    (Q : UInt8 → Console W → Prop) :
    Prog.wp (loadBuf i) Q c ↔ Q (c.scratch i) c := by
  simp [loadBuf, hi]

theorem wp_storeBuf (c : Console W) {i : Nat} (hi : i < scratchSize) (b : UInt8)
    (Q : Unit → Console W → Prop) :
    Prog.wp (storeBuf i b) Q c ↔
      Q () { c with scratch := Function.update c.scratch i b } := by
  simp [storeBuf, hi]

theorem wp_storeArgv (c : Console W) {i : Nat} (hi : i < 4) (offset : Nat)
    (Q : Unit → Console W → Prop) :
    Prog.wp (storeArgv i offset) Q c ↔
      Q () { c with argv := Function.update c.argv i offset } := by
  simp [storeArgv, hi]

theorem wp_loadString {c : Console W} {offset fuel : Nat} {line : List UInt8}
    (h : HoldsString c offset line) (hfuel : line.length < fuel)
    (Q : List UInt8 → Console W → Prop) :
    Prog.wp (loadString fuel offset) Q c ↔ Q line c := by
  induction line generalizing offset fuel Q with
  | nil =>
      obtain ⟨hroom, hend⟩ := holdsString_nil.mp h
      obtain ⟨fuel, rfl⟩ : ∃ k, fuel = k + 1 := ⟨fuel - 1, by omega⟩
      simp [loadString, wp_loadBuf c hroom, hend]
  | cons b line ih =>
      have hroom := h.1
      obtain ⟨⟨hfirst, hne⟩, hrest⟩ := holdsString_cons.mp h
      rw [List.length_cons] at hfuel hroom
      obtain ⟨fuel, rfl⟩ : ∃ k, fuel = k + 1 := ⟨fuel - 1, by omega⟩
      simp only [loadString, Prog.wp_bind, wp_loadBuf c (by omega : offset < _),
        hfirst, if_neg hne]
      rw [ih hrest (by omega)]
      exact Iff.rfl

/-- From `c` to `c'` only the tokenizer has run. -/
structure Tokenized (c c' : Console W) : Prop where
  priv : c'.priv = c.priv
  prompt : c'.prompt = c.prompt
  out : c'.out = c.out
  ring : c'.ring = c.ring
  bufp : c'.bufp = c.bufp
  pt : c'.pt = c.pt
  world : c'.world = c.world
  outside : ∀ i, scratchSize ≤ i → c'.scratch i = c.scratch i
  zeros : ∀ i, c.scratch i = 0 → c'.scratch i = 0

section Tokenized

variable {c c' c'' : Console W}

theorem Tokenized.refl (c : Console W) : Tokenized c c :=
  ⟨rfl, rfl, rfl, rfl, rfl, rfl, rfl, fun _ _ => rfl, fun _ h => h⟩

theorem Tokenized.trans (h : Tokenized c c') (h' : Tokenized c' c'') :
    Tokenized c c'' where
  priv := h'.priv.trans h.priv
  prompt := h'.prompt.trans h.prompt
  out := h'.out.trans h.out
  ring := h'.ring.trans h.ring
  bufp := h'.bufp.trans h.bufp
  pt := h'.pt.trans h.pt
  world := h'.world.trans h.world
  outside := fun i hi => (h'.outside i hi).trans (h.outside i hi)
  zeros := fun i hi => h'.zeros i (h.zeros i hi)

theorem Tokenized.storeBuf (c : Console W) {i : Nat} (hi : i < scratchSize) :
    Tokenized c { c with scratch := Function.update c.scratch i 0 } where
  priv := rfl
  prompt := rfl
  out := rfl
  ring := rfl
  bufp := rfl
  pt := rfl
  world := rfl
  outside := fun k hk => Function.update_of_ne (by omega) _ _
  zeros := fun k hk => by
    change Function.update c.scratch i 0 k = 0
    rw [Function.update_apply]
    split
    · rfl
    · exact hk

theorem Tokenized.args (c : Console W) (argc : Nat) (argv : Nat → Nat) (cmd : Nat) :
    Tokenized c { c with argc, argv, cmd } :=
  ⟨rfl, rfl, rfl, rfl, rfl, rfl, rfl, fun _ _ => rfl, fun _ h => h⟩

end Tokenized

def ArgsOk (c : Console W) : Prop := 1 ≤ c.argc ∧ c.argc ≤ 4 ∧ c.argv 0 = 0

theorem wp_tokenizeLoop_succ {len fuel i : Nat} {quote : UInt8} {c : Console W} (hmore : i < len)
    (hlen : len ≤ scratchSize) (hargc : c.argc < 4) (Q : Unit → Console W → Prop) :
    Prog.wp (tokenizeLoop len (fuel + 1) i quote) Q c ↔
      if isspace (c.scratch i) ∧ quote = 0 then
        Prog.wp (tokenizeLoop len fuel (i + 1) quote) Q
          { c with scratch := Function.update c.scratch i 0 }
      else if c.scratch i = quote then
        Prog.wp (tokenizeLoop len fuel (i + 1) 0) Q
          { c with scratch := Function.update c.scratch i 0 }
      else if c.scratch (i - 1) = 0 then
        if c.scratch i = 39 ∨ c.scratch i = 34 then
          Prog.wp (tokenizeLoop len fuel (i + 1) (c.scratch i)) Q
            { c with scratch := Function.update c.scratch i 0 }
        else if c.argc + 1 ≥ 4 then
          Q () { c with argc := c.argc + 1, argv := Function.update c.argv c.argc i }
        else
          Prog.wp (tokenizeLoop len fuel (i + 1) quote) Q
            { c with argc := c.argc + 1, argv := Function.update c.argv c.argc i }
      else Prog.wp (tokenizeLoop len fuel (i + 1) quote) Q c := by
  have hbuf : i < scratchSize := by omega
  have hprev : i - 1 < scratchSize := by omega
  rw [tokenizeLoop]
  simp only [hmore, not_true_eq_false, if_false, Prog.wp_bind, wp_loadBuf c hbuf, Prog.wp_ite,
    wp_storeBuf c hbuf, wp_loadBuf c hprev, Prog.wp_get, wp_storeArgv c hargc, Prog.wp_modify,
    Prog.wp_pure]

theorem tokenizeLoop_spec {len fuel i : Nat} {quote : UInt8} {c : Console W}
    (hlen : len < scratchSize) (hi : 1 ≤ i) (hfuel : len - i < fuel)
    (hargs : ArgsOk c) (hargc : c.argc < 4) :
    Prog.wp (tokenizeLoop len fuel i quote)
      (fun _ c' => Tokenized c c' ∧ ArgsOk c') c := by
  induction fuel generalizing i quote c with
  | zero => exact absurd hfuel (Nat.not_lt_zero _)
  | succ fuel ih =>
      by_cases hmore : i < len
      · have hbuf : i < scratchSize := by omega
        have hnext : ∀ quote {c' : Console W}, Tokenized c c' → ArgsOk c' →
            c'.argc < 4 → Prog.wp (tokenizeLoop len fuel (i + 1) quote)
              (fun _ c'' => Tokenized c c'' ∧ ArgsOk c'') c' :=
          fun quote c' htok hargs' hargc' =>
            Prog.wp_mono (ih (by omega) (by omega) hargs' hargc')
              fun _ _ h => ⟨htok.trans h.1, h.2⟩
        rw [wp_tokenizeLoop_succ hmore (Nat.le_of_lt hlen) hargc]
        split
        · exact hnext _ (.storeBuf c hbuf) hargs hargc
        split
        · exact hnext _ (.storeBuf c hbuf) hargs hargc
        split
        · split
          · exact hnext _ (.storeBuf c hbuf) hargs hargc
          · obtain ⟨hpos, hle, h0⟩ := hargs
            have hargv : Function.update c.argv c.argc i 0 = 0 := by
              rwa [Function.update_of_ne (by omega)]
            have hargs' : ArgsOk { c with
                argc := c.argc + 1, argv := Function.update c.argv c.argc i } :=
              ⟨Nat.succ_pos _, Nat.succ_le_of_lt hargc, hargv⟩
            split
            · exact ⟨.args c _ _ c.cmd, hargs'⟩
            · next hfew =>
                exact hnext _ (.args c _ _ c.cmd) hargs' (Nat.lt_of_not_le hfew)
        · exact hnext _ (.refl c) hargs hargc
      · rw [tokenizeLoop]
        simp only [hmore, not_false_eq_true, if_true, Prog.wp_pure]
        exact ⟨.refl c, hargs⟩

theorem terminateLoop_spec {len fuel i : Nat} {c : Console W} (hfuel : 4 - i < fuel) :
    Prog.wp (terminateLoop len fuel i) (fun _ c' => c' = { c with
      argv := fun k => if i ≤ k ∧ k < 4 then len else c.argv k }) c := by
  induction fuel generalizing i c with
  | zero => exact absurd hfuel (Nat.not_lt_zero _)
  | succ fuel ih =>
      rw [terminateLoop, Prog.wp_ite]
      split
      · next hmore =>
          simp only [Prog.wp_bind, wp_storeArgv c hmore]
          refine Prog.wp_mono (ih (by omega)) ?_
          rintro _ _ rfl
          congr 1
          funext k
          by_cases hk : k = i
          · subst hk
            simp [hmore]
          · have hrange : i + 1 ≤ k ∧ k < 4 ↔ i ≤ k ∧ k < 4 := by omega
            simp only [hrange, Function.update_of_ne hk]
      · next hdone =>
          have hnone : ∀ k, ¬ (i ≤ k ∧ k < 4) := by omega
          simp [hnone]

theorem doTokenize_spec {c : Console W} {line : List UInt8}
    (h : HoldsString c 0 line) :
    Prog.wp doTokenize
      (fun line' c' => line' = line ∧ Tokenized c c' ∧ ArgsOk c') c := by
  have hlen : line.length < scratchSize := by
    have := h.1
    omega
  have hfuel : line.length < scratchSize + 1 := by omega
  let c₁ : Console W := { c with argc := 1, argv := Function.update c.argv 0 0 }
  have hline : HoldsString c₁ 0 line := h
  have htok : Tokenized c c₁ := .args c 1 _ c.cmd
  have hargs : ArgsOk c₁ :=
    ⟨Nat.le_refl 1, by simp [c₁], Function.update_self 0 0 c.argv⟩
  simp only [doTokenize, Prog.wp_bind, Prog.wp_modify, Prog.wp_get,
    wp_storeArgv _ (by omega : 0 < 4)]
  rw [wp_loadString hline hfuel]
  refine Prog.wp_mono (tokenizeLoop_spec hlen (Nat.le_refl 1) (by omega) hargs
    (by simp [c₁])) ?_
  rintro _ c₂ ⟨htok₂, hargs₂⟩
  refine Prog.wp_mono (terminateLoop_spec (by omega)) ?_
  rintro _ _ rfl
  have hpos := hargs₂.1
  refine ⟨rfl, (htok.trans htok₂).trans (.args c₂ _ _ c₂.cmd), hpos, hargs₂.2.1, ?_⟩
  simp only [hargs₂.2.2]
  exact if_neg (by omega)

/-! ## Finding the command -/

theorem findCommandLoop_spec {cmds : Commands W} {n fuel i : Nat}
    {argv0 : List UInt8} {c : Console W} (hn : n < 32)
    (hends : cmds.EndsAt n)
    (hi : i ≤ n) (hfuel : n - i < fuel) :
    Prog.wp (findCommandLoop cmds argv0 fuel i)
      (fun _ c' => Tokenized c c' ∧ c'.argc = c.argc) c := by
  induction fuel generalizing i with
  | zero => exact absurd hfuel (Nat.not_lt_zero _)
  | succ fuel ih =>
      have hslot : i < 32 := by omega
      rw [findCommandLoop]
      simp only [hslot, not_true_eq_false, if_false]
      rcases Nat.eq_or_lt_of_le hi with rfl | hlt
      · obtain ⟨cmd, hcmd, hname⟩ := hends.2
        simp only [hcmd, hname]
        exact ⟨.args c c.argc c.argv cmd, rfl⟩
      · obtain ⟨cmd, hcmd⟩ := hends.1 i hlt
        simp only [hcmd]
        cases cmds.name cmd with
        | none => exact ⟨.args c c.argc c.argv cmd, rfl⟩
        | some name =>
            simp only [Prog.wp_ite]
            split
            · exact ⟨.args c c.argc c.argv cmd, rfl⟩
            · exact ih hlt (by omega)

theorem exists_holdsString {c : Console W} {offset k : Nat}
    (hlast : offset + k < scratchSize) (hzero : c.scratch (offset + k) = 0) :
    ∃ line, HoldsString c offset line := by
  induction k generalizing offset with
  | zero => exact ⟨[], holdsString_nil.mpr ⟨hlast, hzero⟩⟩
  | succ k ih =>
      by_cases hfirst : c.scratch offset = 0
      · exact ⟨[], holdsString_nil.mpr ⟨by omega, hfirst⟩⟩
      · have hshift : offset + 1 + k = offset + (k + 1) := by omega
        have hrest : offset + 1 + k < scratchSize := by omega
        obtain ⟨line, hline⟩ := ih hrest (by rw [hshift, hzero])
        exact ⟨c.scratch offset :: line, holdsString_cons.mpr ⟨⟨rfl, hfirst⟩, hline⟩⟩

theorem findCommand_spec {cmds : Commands W} (hcmds : cmds.Registered)
    {c : Console W} (hargs : ArgsOk c) {last : Nat} (hlast : last < scratchSize)
    (hzero : c.scratch last = 0) :
    Prog.wp (findCommand cmds) (fun _ c' => Tokenized c c') c := by
  obtain ⟨n, hn, hends⟩ := hcmds.endsAt
  have hlast' : 0 + last < scratchSize := by rwa [Nat.zero_add]
  have hzero' : c.scratch (0 + last) = 0 := by rwa [Nat.zero_add]
  obtain ⟨line, hline⟩ := exists_holdsString (c := c) hlast' hzero'
  have hlen := hline.1
  simp only [findCommand, Prog.wp_bind, Prog.wp_get, hargs.2.2]
  rw [wp_loadString hline (by omega)]
  refine Prog.wp_mono (findCommandLoop_spec hn hends (Nat.zero_le n)
    (by omega)) ?_
  exact fun _ _ h => h.1

end Librfn
