import Librfn.Bintree.Graphviz

/-!
# Escaped labels

Both loops of `escape` go through the escaped label, so the block is as long
as what is copied into it.  It is the type of the length that limits labels.
-/

namespace Librfn

open Librfn.Logic Prog Blocks

def escapedLabel (text : List UInt8) : List UInt8 := escapeAll 92 mustEscape text

@[simp] theorem escapedLabel_nil : escapedLabel [] = [] := rfl

def escapeBefore (c : UInt8) : List UInt8 := if mustEscape c then [92] else []

theorem escapedLabel_cons (c : UInt8) (text : List UInt8) :
    escapedLabel (c :: text) = escapeBefore c ++ [c] ++ escapedLabel text := by
  unfold escapeBefore
  cases hc : mustEscape c with
  | false => exact escapeAll_plain hc text
  | true => exact escapeAll_special hc text

theorem length_escapedLabel (text : List UInt8) :
    (escapedLabel text).length = text.length + text.countP mustEscape := length_escapeAll text

theorem addInt_natCast (a b : Nat) :
    addInt a b = if a + b < 2 ^ 31 then some ((a + b : Nat) : Int) else none := by
  unfold addInt
  by_cases hlt : a + b < 2 ^ 31
  · rw [if_pos hlt, if_pos (by omega), Int.natCast_add]
  · rw [if_neg hlt, if_neg (by omega)]

theorem toSize_natCast {n : Nat} (h : n < 2 ^ 31) : toSize n = n := by
  unfold toSize
  omega

/-! ## The loops -/

section Loops

variable {h : Blocks} {s : Nat} {before rest : List UInt8}

theorem wp_escapeCount (hs : h.CString s (before ++ rest)) {fuel : Nat}
    (hfuel : rest.length < fuel) {len : Nat} (hlen : len < 2 ^ 31)
    (Q : Option (Nat × Int) → Blocks → Prop) :
    wp (escapeCount s fuel before.length len) Q h ↔
      Q (if len + (escapedLabel rest).length < 2 ^ 31 then
          some ((before ++ rest).length, ((len + (escapedLabel rest).length : Nat) : Int))
        else none) h := by
  induction rest generalizing before fuel len with
  | nil =>
      obtain ⟨fuel, rfl⟩ := Nat.exists_eq_add_of_lt hfuel
      rw [escapeCount, wp_bind, hs.wp_loadByte, charAt_nil, if_pos rfl, wp_pure, escapedLabel_nil,
        List.length_nil, Nat.add_zero, if_pos hlen, List.append_nil]
  | cons c rest ih =>
      obtain ⟨fuel, rfl⟩ := Nat.exists_eq_add_of_lt hfuel
      obtain ⟨width, hwidth, hcast⟩ : ∃ width : Nat,
          (escapedLabel (c :: rest)).length = width + (escapedLabel rest).length ∧
            (if mustEscape c then (2 : Int) else 1) = width := by
        rw [escapedLabel_cons, escapeBefore]
        split
        · exact ⟨2, by simp; omega, rfl⟩
        · exact ⟨1, by simp; omega, rfl⟩
      rw [escapeCount, wp_bind, hs.wp_loadByte, charAt_cons_zero, if_neg hs.ne_zero, hcast,
        addInt_natCast, hwidth, ← Nat.add_assoc]
      by_cases hfits : len + width < 2 ^ 31
      · have hrest := ih hs.next (Nat.lt_add_right fuel (Nat.lt_succ_self _)) hfits
        rw [List.length_append, List.length_singleton] at hrest
        rw [if_pos hfits, List.append_cons]
        exact hrest
      · rw [if_neg hfits, if_neg (by omega)]
        rfl

theorem wp_storeBefore {size : Nat} {bytes : List UInt8} (c : UInt8)
    (hroom : bytes.length + (escapeBefore c).length ≤ size) (Q : Nat → Blocks → Prop) :
    wp (if mustEscape c then do
        storeByte h.blocks.length bytes.length 92
        return bytes.length + 1
      else return bytes.length) Q (h.filled size bytes) ↔
      Q (bytes ++ escapeBefore c).length (h.filled size (bytes ++ escapeBefore c)) := by
  unfold escapeBefore at hroom ⊢
  split
  · next hmust =>
      rw [if_pos hmust] at hroom
      rw [wp_bind, wp_storeByte_filled hroom, wp_pure, List.length_append]
      rfl
  · rw [wp_pure, List.append_nil]

theorem wp_escapeCopy (hs : h.CString s (before ++ rest)) {fuel : Nat}
    (hfuel : rest.length < fuel) {size : Nat} {bytes : List UInt8}
    (hroom : bytes.length + (escapedLabel rest).length ≤ size) (Q : Nat → Blocks → Prop) :
    wp (escapeCopy s h.blocks.length fuel before.length bytes.length) Q (h.filled size bytes) ↔
      Q (bytes ++ escapedLabel rest).length (h.filled size (bytes ++ escapedLabel rest)) := by
  induction rest generalizing before fuel bytes with
  | nil =>
      obtain ⟨fuel, rfl⟩ := Nat.exists_eq_add_of_lt hfuel
      rw [escapeCopy, wp_bind, (hs.filled size bytes).wp_loadByte, charAt_nil, if_pos rfl, wp_pure,
        escapedLabel_nil, List.append_nil]
  | cons c rest ih =>
      obtain ⟨fuel, rfl⟩ := Nat.exists_eq_add_of_lt hfuel
      rw [escapedLabel_cons, List.length_append, List.length_append, List.length_singleton]
        at hroom
      have hlength (xs : List UInt8) : (xs ++ [c]).length = xs.length + 1 := List.length_append
      have hlabel : bytes ++ escapedLabel (c :: rest) =
          bytes ++ escapeBefore c ++ [c] ++ escapedLabel rest := by
        rw [escapedLabel_cons]
        simp only [List.append_assoc]
      have hwritten : (bytes ++ escapeBefore c ++ [c]).length + (escapedLabel rest).length ≤
          size := by
        rw [hlength, List.length_append]
        omega
      have hrest := ih hs.next (Nat.lt_add_right fuel (Nat.lt_succ_self _)) hwritten
      rw [hlength, hlength] at hrest
      rw [escapeCopy, wp_bind, (hs.filled size bytes).wp_loadByte, charAt_cons_zero,
        if_neg hs.ne_zero, wp_bind, wp_storeBefore c (by omega), wp_bind,
        (hs.filled size _).wp_loadByte, wp_bind,
        wp_storeByte_filled (by rw [hlength] at hwritten; omega), charAt_cons_zero, hlabel]
      exact hrest

end Loops

/-! ## A label -/

/-- There is an `int` for the length of the escaped label and, where it is copied, for that of
the block. -/
def EscapeFits (text : List UInt8) : Prop :=
  text.length + text.countP mustEscape < 2 ^ 31 ∧
    (text.countP mustEscape ≠ 0 → text.length + text.countP mustEscape + 1 < 2 ^ 31)

instance : DecidablePred EscapeFits := fun _ => inferInstanceAs (Decidable (_ ∧ _))

section Label

variable {h : Blocks} {s : Nat} {text : List UInt8}

def escapedHeap (h : Blocks) (s : Nat) (text : List UInt8) : Blocks :=
  (h.filled ((escapedLabel text).length + 1) (escapedLabel text ++ [0])).without s

theorem wp_escapeCount_start (hs : h.CString s text) {fuel : Nat} (hfuel : text.length < fuel)
    (Q : Option (Nat × Int) → Blocks → Prop) :
    wp (escapeCount s fuel 0 0) Q h ↔
      Q (if (escapedLabel text).length < 2 ^ 31 then
          some (text.length, ((escapedLabel text).length : Int))
        else none) h := by
  have hcount : wp (escapeCount s fuel 0 0) Q h ↔ _ :=
    @wp_escapeCount h s [] text hs fuel hfuel 0 (by decide) Q
  rwa [Nat.zero_add] at hcount

theorem wp_escape_copies (hs : h.CString s text) {fuel : Nat} (hfuel : text.length < fuel)
    (Q : Option Nat → Blocks → Prop) :
    wp (do
      let t ← xmalloc ((escapedLabel text).length + 1)
      let ti ← escapeCopy s t fuel 0 0
      storeByte t ti 0
      free s
      return some t) Q h ↔ Q (some h.blocks.length) (escapedHeap h s text) := by
  have hcopy (Q : Nat → Blocks → Prop) :
      wp (escapeCopy s h.blocks.length fuel 0 0) Q
          (h.filled ((escapedLabel text).length + 1) []) ↔
        Q (escapedLabel text).length
          (h.filled ((escapedLabel text).length + 1) (escapedLabel text)) :=
    @wp_escapeCopy h s [] text hs fuel hfuel _ [] (Nat.zero_add _ ▸ Nat.le_succ _) Q
  rw [wp_bind, xmalloc, wp_malloc, wp_bind, hcopy, wp_bind,
    wp_storeByte_filled (Nat.lt_succ_self _), wp_bind, (hs.filled _ _).wp_free, wp_pure]
  rfl

theorem wp_escape (hs : h.CString s text) {fuel : Nat} (hfuel : text.length < fuel)
    (Q : Option Nat → Blocks → Prop) :
    wp (escape fuel s) Q h ↔
      if EscapeFits text then
        if text.countP mustEscape = 0 then Q (some s) h
        else Q (some h.blocks.length) (escapedHeap h s text)
      else Q none h := by
  have hlength := length_escapedLabel text
  rw [escape, wp_bind, wp_escapeCount_start hs hfuel]
  by_cases hint : (escapedLabel text).length < 2 ^ 31
  · rw [if_pos hint]
    dsimp only
    by_cases hnone : text.countP mustEscape = 0
    · have hfits : EscapeFits text := ⟨hlength ▸ hint, fun hsome => absurd hnone hsome⟩
      rw [if_pos (by omega), if_pos hfits, if_pos hnone, wp_pure]
    · have hone : addInt (escapedLabel text).length 1 = _ :=
        addInt_natCast (escapedLabel text).length 1
      rw [if_neg (by omega), hone]
      by_cases hroom : (escapedLabel text).length + 1 < 2 ^ 31
      · have hfits : EscapeFits text := ⟨hlength ▸ hint, fun _ => hlength ▸ hroom⟩
        rw [if_pos hroom, if_pos hfits, if_neg hnone]
        dsimp only
        rw [toSize_natCast hroom, wp_escape_copies hs hfuel]
      · have hnot : ¬ EscapeFits text := fun hfits => hroom (hlength ▸ hfits.2 hnone)
        rw [if_neg hroom, if_neg hnot]
        rfl
  · have hnot : ¬ EscapeFits text := fun hfits => hint (hlength ▸ hfits.1)
    rw [if_neg hint, if_neg hnot]
    rfl

theorem block_escapedHeap (hs : h.CString s text) :
    (escapedHeap h s text).block h.blocks.length = some ((escapedLabel text ++ [0]).map some) := by
  have hfull : (escapedLabel text).length + 1 - (escapedLabel text ++ [0]).length = 0 := by simp
  rw [escapedHeap, block_without hs.lt.ne, block_new, hfull, List.replicate_zero, List.append_nil]

theorem written_escapedHeap :
    (escapedHeap h s text).allocated = h.allocated + ((escapedLabel text).length + 1) ∧
      (escapedHeap h s text).written = h.written + ((escapedLabel text).length + 1) := by
  refine ⟨rfl, ?_⟩
  simp [escapedHeap, without, filled]

theorem nul_escapedLabel (hnul : 0 ∉ text) : 0 ∉ escapedLabel text := by
  intro hmem
  rcases mem_escapeAll hmem with hzero | htext
  · exact absurd hzero (by decide)
  · exact hnul htext

theorem odd_trailingEscapes {before after : List UInt8}
    (h : escapedLabel text = before ++ 34 :: after) : Odd (trailingEscapes 92 before) :=
  (escapesNext_iff before).mp (escapesNext_of_special rfl rfl (by decide) h)

/-- What `escape` is to make of a label. -/
structure EscapesExactly (h : Blocks) (s : Nat) (text : List UInt8) (t : Nat) (h' : Blocks)
    (result : List UInt8) : Prop where
  returns : Returns (fun fuel => escape fuel s) h (some t, h')
  string : h'.CString t result
  untouched : (∀ c ∈ text, mustEscape c = false) → t = s ∧ h' = h
  /-- The new block is full of what was written. -/
  exact : (∃ c ∈ text, mustEscape c = true) →
    h'.block t = some ((result ++ [0]).map some) ∧
      h'.allocated = h.allocated + (result.length + 1) ∧
      h'.written = h.written + (result.length + 1)
  reversible : unescape 92 result = text
  quotes : ∀ before after, result = before ++ 34 :: after → Odd (trailingEscapes 92 before)

theorem fits_of_escapesExactly (hs : h.CString s text) {t : Nat} {h' : Blocks}
    {result : List UInt8} (hexact : EscapesExactly h s text t h' result) : EscapeFits text := by
  by_contra hnot
  obtain ⟨enough, hreturns⟩ := hexact.returns
  have hnone : wp (escape (max enough (text.length + 1)) s) (fun r _ => r = none) h := by
    rw [wp_escape hs (Nat.lt_of_succ_le (Nat.le_max_right _ _)), if_neg hnot]
  rw [wp_iff_of_eq (hreturns _ (Nat.le_max_left _ _))] at hnone
  cases hnone

theorem countP_mustEscape_eq_zero :
    text.countP mustEscape = 0 ↔ ∀ c ∈ text, mustEscape c = false := by
  simp only [List.countP_eq_zero, Bool.not_eq_true]

theorem not_special_of_plain (hplain : ∀ c ∈ text, mustEscape c = false) :
    ¬ ∃ c ∈ text, mustEscape c = true := by
  rintro ⟨c, hc, hmust⟩
  rw [hplain c hc] at hmust
  cases hmust

theorem escapesExactly_plain (hs : h.CString s text) (hfits : EscapeFits text)
    (hplain : ∀ c ∈ text, mustEscape c = false) : EscapesExactly h s text s h text := by
  have hnone := countP_mustEscape_eq_zero.mpr hplain
  have hself : escapedLabel text = text := escapeAll_eq_self hplain
  constructor
  case returns =>
    refine Returns.of_forall_wp ⟨text.length + 1, fun fuel hfuel => ?_⟩
    rw [wp_escape hs hfuel, if_pos hfits, if_pos hnone]
    exact ⟨rfl, rfl⟩
  case string => exact hs
  case untouched => exact fun _ => ⟨rfl, rfl⟩
  case exact => exact fun hsome => absurd hsome (not_special_of_plain hplain)
  case reversible =>
    have hundone : unescape 92 (escapedLabel text) = text := unescape_escapeAll rfl text
    rwa [hself] at hundone
  case quotes =>
    intro before after hresult
    exact odd_trailingEscapes (hself.trans hresult)

theorem escapesExactly_copied (hs : h.CString s text) (hfits : EscapeFits text)
    (hsome : ∃ c ∈ text, mustEscape c = true) :
    EscapesExactly h s text h.blocks.length (escapedHeap h s text) (escapedLabel text) := by
  have hcount : text.countP mustEscape ≠ 0 := (List.countP_pos_iff.mpr hsome).ne'
  constructor
  case returns =>
    refine Returns.of_forall_wp ⟨text.length + 1, fun fuel hfuel => ?_⟩
    rw [wp_escape hs hfuel, if_pos hfits, if_neg hcount]
    exact ⟨rfl, rfl⟩
  case string => exact .of_block (nul_escapedLabel hs.nul) (block_escapedHeap hs)
  case untouched => exact fun hplain => absurd hsome (not_special_of_plain hplain)
  case exact => exact fun _ => ⟨block_escapedHeap hs, written_escapedHeap⟩
  case reversible => exact unescape_escapeAll rfl text
  case quotes => exact fun _ _ => odd_trailingEscapes

end Label

/-- As long as the length is an `int` the label comes back escaped, in a block that it fills. -/
theorem escape_exact_iff {h : Blocks} {s : Nat} {text : List UInt8} (hs : h.CString s text) :
    (∃ t h' result, EscapesExactly h s text t h' result) ↔ EscapeFits text := by
  constructor
  · rintro ⟨t, h', result, hexact⟩
    exact fits_of_escapesExactly hs hexact
  · intro hfits
    by_cases hsome : ∃ c ∈ text, mustEscape c = true
    · exact ⟨_, _, _, escapesExactly_copied hs hfits hsome⟩
    · simp only [not_exists, not_and, Bool.not_eq_true] at hsome
      exact ⟨_, _, _, escapesExactly_plain hs hfits hsome⟩

def labelHeap (text : List UInt8) : Blocks where
  blocks := [some ((text ++ [0]).map some)]
  allocated := text.length + 1
  written := text.length + 1

theorem labelHeap_string {text : List UInt8} (hnul : 0 ∉ text) : (labelHeap text).CString 0 text :=
  .of_block hnul rfl

/-- A double quote and a backslash. -/
theorem escape_exact_iff_two :
    (∃ t h' result, EscapesExactly (labelHeap [34, 92]) 0 [34, 92] t h' result) ↔
      EscapeFits [34, 92] :=
  escape_exact_iff (labelHeap_string (by decide))

/-- The length of the label with its backslashes is no `int`. -/
theorem escape_overflows :
    (labelHeap (List.replicate (2 ^ 30) 34)).CString 0 (List.replicate (2 ^ 30) 34) ∧
      ¬ ∃ t h' result, EscapesExactly (labelHeap (List.replicate (2 ^ 30) 34)) 0
        (List.replicate (2 ^ 30) 34) t h' result := by
  have hnul : (0 : UInt8) ∉ List.replicate (2 ^ 30) 34 :=
    fun hmem => absurd (List.eq_of_mem_replicate hmem) (by decide)
  have hstring := labelHeap_string hnul
  refine ⟨hstring, ?_⟩
  rintro ⟨t, h', result, hexact⟩
  have hfits := (fits_of_escapesExactly hstring hexact).1
  rw [List.length_replicate, List.countP_replicate, if_pos (by decide)] at hfits
  omega

end Librfn
