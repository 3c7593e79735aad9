import Mathlib.NumberTheory.Padics.PadicVal.Basic
import Librfn.Bitops.Reference
import Librfn.Regdump

/-!
# The lines of a register dump

A call prints the line of its state and moves on.  What it shows of a field is
right as long as the lowest bit of the mask is not beyond the reach of `ctz`.
-/

namespace Librfn

open Librfn.Logic Prog

variable {w : Nat}

/-! ## The value of a field -/

def alignedField (reg mask : BitVec w) : Nat :=
  (reg &&& mask).toNat / 2 ^ padicValNat 2 mask.toNat

theorem padicValNat_toNat {x : BitVec w} (hx : x ≠ 0) : padicValNat 2 x.toNat = x.ctz.toNat := by
  obtain ⟨q, hq⟩ := toNat_eq_of_ctz hx
  have hfactor : x.toNat = 2 ^ x.ctz.toNat * (2 * q + 1) := by
    rw [hq, pow_succ]
    ring
  have hodd : padicValNat 2 (2 * q + 1) = 0 := padicValNat.eq_zero_of_not_dvd (by omega)
  rw [hfactor, padicValNat.mul (by positivity) (by omega), padicValNat.prime_pow, hodd,
    Nat.add_zero]

theorem ctz_lower {mask : BitVec w} (hmask : mask ≠ 0) :
    (ctz (mask.setWidth 32)).toNat = min mask.ctz.toNat 32 := by
  rw [ctz_eq, Int.toNat_natCast]
  have hbit := BitVec.getLsbD_true_ctz_of_ne_zero hmask
  have hlow := fun j => BitVec.getLsbD_false_of_lt_ctz (x := mask) (i := j)
  generalize mask.ctz.toNat = t at hbit hlow
  by_cases ht : t < 32
  · rw [Nat.min_eq_left (Nat.le_of_lt ht)]
    refine ctz_eq_of_bits (fun j hj => ?_) ?_
    · rw [BitVec.getLsbD_setWidth, hlow j hj, Bool.and_false]
    · rw [BitVec.getLsbD_setWidth, hbit, decide_eq_true ht, Bool.and_true]
  · have hzero : mask.setWidth 32 = 0 := by
      refine BitVec.eq_of_getLsbD_eq fun j hj => ?_
      rw [BitVec.getLsbD_setWidth, hlow j (by omega), Bool.and_false]
      exact BitVec.getLsbD_zero.symm
    rw [hzero, Nat.min_eq_right (by omega)]
    decide +kernel

theorem two_pow_ctz_dvd (reg mask : BitVec w) :
    2 ^ mask.ctz.toNat ∣ (reg &&& mask).toNat := by
  refine Nat.dvd_of_mod_eq_zero (Nat.eq_of_testBit_eq fun j => ?_)
  rw [Nat.testBit_mod_two_pow, Nat.zero_testBit]
  by_cases hj : j < mask.ctz.toNat
  · have hlow := BitVec.getLsbD_false_of_lt_ctz hj
    rw [← BitVec.getLsbD, BitVec.getLsbD_and, hlow, Bool.and_false, Bool.and_false]
  · rw [decide_eq_false hj, Bool.false_and]

/-- The field is down at the right unless there are bits in it and the lowest of its mask is
above bit 32. -/
theorem toNat_shiftedField_eq_iff (reg : BitVec w) {mask : BitVec w} (hmask : mask ≠ 0) :
    (shiftedField reg mask).toNat = alignedField reg mask ↔
      mask.ctz.toNat ≤ 32 ∨ reg &&& mask = 0 := by
  rw [shiftedField, alignedField, BitVec.toNat_ushiftRight, Nat.shiftRight_eq_div_pow,
    ctz_lower hmask, padicValNat_toNat hmask, BitVec.toNat_eq (y := 0)]
  obtain ⟨c, hc⟩ := two_pow_ctz_dvd reg mask
  rw [hc, Nat.mul_div_cancel_left c (Nat.two_pow_pos _)]
  generalize mask.ctz.toNat = t
  by_cases ht : t ≤ 32
  · rw [Nat.min_eq_left ht, Nat.mul_div_cancel_left c (Nat.two_pow_pos _)]
    simp [ht]
  · obtain ⟨k, rfl⟩ : ∃ k, t = 32 + (k + 1) := ⟨t - 33, by omega⟩
    rw [Nat.min_eq_right (by omega), Nat.pow_add, Nat.mul_assoc,
      Nat.mul_div_cancel_left _ (Nat.two_pow_pos 32)]
    have htwo : 2 ≤ 2 ^ (k + 1) := by
      rw [Nat.pow_succ]
      have := Nat.two_pow_pos k
      omega
    constructor
    · intro heq
      right
      rcases Nat.eq_zero_or_pos c with rfl | hpos
      · rfl
      · have := Nat.mul_le_mul_right c htwo
        omega
    · rintro (hle | hzero)
      · exact absurd hle ht
      · have hc0 : c = 0 := by simpa using hzero
        rw [hc0, Nat.mul_zero]

/-! ## Texts -/

theorem digitChar_inj : ∀ m < 16, ∀ n < 16, Nat.digitChar m = Nat.digitChar n → m = n := by
  decide

theorem formatX_injective : Function.Injective formatX := by
  intro m n h
  unfold formatX at h
  induction m using Nat.strongRecOn generalizing n with
  | ind m ih =>
      rw [Nat.toDigits_eq_if (b := 16) (n := m) (by decide),
        Nat.toDigits_eq_if (b := 16) (n := n) (by decide)] at h
      split at h <;> split at h
      · rename_i hm hn
        exact digitChar_inj m hm n hn (List.singleton_inj.mp h)
      · have hlen := congrArg List.length h
        simp at hlen
      · have hlen := congrArg List.length h
        simp at hlen
      · obtain ⟨hdiv, hmod⟩ := List.append_inj' h rfl
        have hquot := ih (m / 16) (by omega) hdiv
        have hrem := digitChar_inj _ (Nat.mod_lt m (by decide)) _ (Nat.mod_lt n (by decide))
          (List.singleton_inj.mp hmod)
        omega

theorem fieldLine_inj {name : List Char} {u v : Nat} (h : fieldLine name u = fieldLine name v) :
    u = v := by
  refine formatX_injective ?_
  simpa [fieldLine] using h

/-! ## Tables -/

/-- A field, whose mask is not zero. -/
structure RegdumpField (w : Nat) where
  name : List Char
  mask : BitVec w
  mask_ne_zero : mask ≠ 0

/-- A table: the entry that names the register, the fields and the terminator. -/
structure RegdumpTable (w : Nat) where
  register : List Char
  registerMask : BitVec w
  fields : List (RegdumpField w)
  endMask : BitVec w

namespace RegdumpTable

variable (table : RegdumpTable w) (reg : BitVec w)

def desc : List (RegdumpDesc w) :=
  ⟨some table.register, table.registerMask⟩ ::
    table.fields.map (fun field => ⟨some field.name, field.mask⟩) ++ [⟨none, table.endMask⟩]

def lines (value : BitVec w → Nat) : List (List Char) :=
  nameLine table.register :: table.fields.map fun field => fieldLine field.name (value field.mask)

def size : Nat := table.fields.length + 1

@[simp] theorem length_lines (value : BitVec w → Nat) :
    (table.lines value).length = table.size := by
  simp [lines, size]

/-- What the code shows of a field. -/
def shown (mask : BitVec w) : Nat := (shiftedField reg mask).toNat

def stateAfter (count : Nat) : BitVec 32 :=
  if count = table.size then 0 else BitVec.ofNat 32 count

variable {table reg}

theorem desc_size : table.desc[table.size]? = some ⟨none, table.endMask⟩ := by
  simp [desc, size]

theorem desc_succ {i : Nat} {field : RegdumpField w} (h : table.fields[i]? = some field) :
    table.desc[i + 1]? = some ⟨some field.name, field.mask⟩ := by
  have hlt := (List.getElem?_eq_some_iff.mp h).1
  rw [desc, List.cons_append, List.getElem?_cons_succ, List.getElem?_append_left (by simpa),
    List.getElem?_map, h, Option.map_some]

theorem exists_desc {i : Nat} (hi : i ≤ table.size) :
    ∃ d, table.desc[i]? = some d ∧ (d.name = none ↔ i = table.size) := by
  rcases Nat.eq_or_lt_of_le hi with rfl | hlt
  · exact ⟨_, desc_size, by simp⟩
  · cases i with
    | zero => exact ⟨_, rfl, by simp; omega⟩
    | succ i =>
        have hfield := List.getElem?_eq_getElem (Nat.lt_of_succ_lt_succ hlt)
        exact ⟨_, desc_succ hfield, by simp; omega⟩

theorem wp_loadDesc {i : Nat} {s : BitVec 32} (hs : s.toNat = i) (hi : i < 2 ^ 31)
    {d : RegdumpDesc w} (hd : table.desc[i]? = some d) {Q : RegdumpDesc w → RegdumpIo → Prop}
    {io : RegdumpIo} : wp (loadDesc table.desc s) Q io ↔ Q d io := by
  have hint : ¬ s.toInt < 0 := by
    rw [BitVec.toInt_eq_toNat_of_lt (by omega)]
    omega
  rw [loadDesc, if_neg hint, hs, hd]
  rfl

@[simp] theorem wp_loadName {name : List Char} {mask : BitVec w}
    {Q : List Char → RegdumpIo → Prop} {io : RegdumpIo} :
    wp (loadName ⟨some name, mask⟩) Q io ↔ Q name io := Iff.rfl

@[simp] theorem wp_fprint {text : List Char} {Q : Unit → RegdumpIo → Prop} {io : RegdumpIo} :
    wp (fprint text) Q io ↔ Q () { io with out := io.out ++ text } := Iff.rfl

theorem toNat_state {i : Nat} (hi : i < 2 ^ 31) : (BitVec.ofNat 32 i).toNat = i := by
  rw [BitVec.toNat_ofNat]
  omega

theorem state_ne_zero {i : Nat} (hi : i + 1 < 2 ^ 31) : BitVec.ofNat 32 (i + 1) ≠ 0 := by
  intro hzero
  have hstate := toNat_state hi
  rw [hzero] at hstate
  cases hstate

theorem wp_fregdumpSingle_field {i : Nat} (hi : i + 1 < 2 ^ 31) {field : RegdumpField w}
    (hfield : table.fields[i]? = some field) {Q : BitVec 32 → RegdumpIo → Prop}
    {out : List Char} :
    wp (fregdumpSingle reg table.desc) Q ⟨BitVec.ofNat 32 (i + 1), out⟩ ↔
      wp (loadDesc table.desc (BitVec.ofNat 32 (i + 2)))
        (fun d io => if d.name = none then Q 0 { io with state := 0 } else Q io.state io)
        ⟨BitVec.ofNat 32 (i + 2), out ++ fieldLine field.name (shown reg field.mask)⟩ := by
  have hback : BitVec.ofNat 32 (i + 1) + 1 = BitVec.ofNat 32 (i + 2) :=
    (BitVec.ofNat_add (i + 1) 1).symm
  simp only [fregdumpSingle, wp_bind, wp_get, wp_modify, wp_ite, hback,
    if_neg (state_ne_zero hi), wp_loadDesc (toNat_state hi) hi (desc_succ hfield), wp_loadName,
    wp_fprint, wp_pure, shown]

/-- A call in the state `i` prints the line of entry `i` and goes on to the next, or back to the
start. -/
theorem wp_fregdumpSingle {i : Nat} (hi : i < table.size) (hint : i + 1 < 2 ^ 31)
    {line : List Char} (hline : (table.lines (shown reg))[i]? = some line)
    {Q : BitVec 32 → RegdumpIo → Prop} {out : List Char} :
    wp (fregdumpSingle reg table.desc) Q ⟨BitVec.ofNat 32 i, out⟩ ↔
      Q (table.stateAfter (i + 1)) ⟨table.stateAfter (i + 1), out ++ line⟩ := by
  obtain ⟨after, hafter, hlast⟩ : ∃ after, table.desc[i + 1]? = some after ∧
      (after.name = none ↔ i + 1 = table.size) := exists_desc hi
  cases i with
  | zero =>
      obtain rfl : nameLine table.register = line := Option.some.inj hline
      have hzero : BitVec.ofNat 32 0 = 0 := rfl
      have hback : BitVec.ofNat 32 0 + 1 = BitVec.ofNat 32 (0 + 1) := rfl
      have hfirst : table.desc[0]? = some ⟨some table.register, table.registerMask⟩ := rfl
      simp only [fregdumpSingle, wp_bind, wp_get, wp_modify, wp_ite, hback,
        wp_loadDesc (s := 0) rfl (by decide) hfirst, wp_loadDesc (toNat_state hint) hint hafter,
        wp_loadName, wp_fprint, wp_pure, hlast, stateAfter]
      rw [if_pos hzero]
      split <;> rfl
  | succ i =>
      obtain ⟨field, hfield, rfl⟩ :
          ∃ field, table.fields[i]? = some field ∧
            fieldLine field.name (shown reg field.mask) = line := by
        simpa [lines] using hline
      rw [wp_fregdumpSingle_field (by omega) hfield,
        wp_loadDesc (toNat_state hint) hint hafter]
      simp only [hlast, stateAfter]
      split <;> rfl

theorem not_wp_fregdumpSingle {i : Nat} (hi : i < table.size) (hint : i + 1 = 2 ^ 31)
    {Q : BitVec 32 → RegdumpIo → Prop} {out : List Char} :
    ¬ wp (fregdumpSingle reg table.desc) Q ⟨BitVec.ofNat 32 i, out⟩ := by
  obtain ⟨i, rfl⟩ : ∃ j, i = j + 1 := ⟨i - 1, by omega⟩
  have hfield := List.getElem?_eq_getElem (Nat.lt_of_succ_lt_succ hi)
  have hneg : (BitVec.ofNat 32 (i + 2)).toInt < 0 := by
    rw [hint]
    decide
  rw [wp_fregdumpSingle_field (by omega) hfield, loadDesc, if_pos hneg]
  exact id

end RegdumpTable

/-! ## A dump -/

def fregdumpSingles (reg : BitVec w) (desc : List (RegdumpDesc w)) :
    Nat → Prog RegdumpIo (List (BitVec 32))
  | 0 => pure []
  | count + 1 => do
      let results ← fregdumpSingles reg desc count
      let result ← fregdumpSingle reg desc
      return results ++ [result]

namespace RegdumpTable

variable {table : RegdumpTable w} {reg : BitVec w}

theorem wp_fregdumpSingles {count : Nat} (hcount : count ≤ table.size) (hint : count < 2 ^ 31)
    {Q : List (BitVec 32) → RegdumpIo → Prop} {out : List Char} :
    wp (fregdumpSingles reg table.desc count) Q ⟨regdumpStateVarInit, out⟩ ↔
      Q ((List.range count).map fun i => table.stateAfter (i + 1))
        ⟨table.stateAfter count, out ++ ((table.lines (shown reg)).take count).flatten⟩ := by
  induction count generalizing Q with
  | zero =>
      have hstart : table.stateAfter 0 = regdumpStateVarInit := if_neg (by simp [size])
      rw [hstart]
      simp [fregdumpSingles]
  | succ count ih =>
      have hlt : count < (table.lines (shown reg)).length := by
        rw [length_lines]
        exact hcount
      have hstate : table.stateAfter count = BitVec.ofNat 32 count := if_neg (by omega)
      have hline := List.getElem?_eq_getElem hlt
      rw [fregdumpSingles, wp_bind, ih (by omega) (by omega), hstate, wp_bind,
        wp_fregdumpSingle hcount hint hline, wp_pure, List.range_succ, List.map_append,
        List.take_succ_eq_append_getElem hlt, List.flatten_append, List.append_assoc]
      simp

theorem wp_fregdumpLoop (hint : table.size < 2 ^ 31) {fuel i : Nat} (hi : i < table.size)
    (hfuel : table.size ≤ i + fuel) {Q : Unit → RegdumpIo → Prop} {out : List Char} :
    wp (fregdumpLoop reg table.desc fuel) Q ⟨BitVec.ofNat 32 i, out⟩ ↔
      Q () ⟨0, out ++ ((table.lines (shown reg)).drop i).flatten⟩ := by
  induction fuel generalizing i out with
  | zero => omega
  | succ fuel ih =>
      have hlt : i < (table.lines (shown reg)).length := by
        rw [length_lines]
        exact hi
      have hline := List.getElem?_eq_getElem hlt
      rw [fregdumpLoop, wp_bind, wp_fregdumpSingle hi (by omega) hline, wp_ite,
        List.drop_eq_getElem_cons hlt, List.flatten_cons, ← List.append_assoc]
      by_cases hlast : i + 1 = table.size
      · have hend : table.stateAfter (i + 1) = 0 := if_pos hlast
        have hrest : (table.lines (shown reg)).drop (i + 1) = [] :=
          List.drop_eq_nil_of_le (by rw [length_lines]; omega)
        rw [hend, hrest, if_neg (by simp), wp_pure, List.flatten_nil, List.append_nil]
      · have hstate : table.stateAfter (i + 1) = BitVec.ofNat 32 (i + 1) := if_neg hlast
        rw [hstate, if_pos (state_ne_zero (by omega)), ih (by omega) (by omega)]

theorem dump_returns (hint : table.size < 2 ^ 31) (out : List Char) :
    Returns (fun fuel => fregdump fuel reg table.desc) out
      ((), out ++ (table.lines (shown reg)).flatten) := by
  refine Returns.of_forall_wp ⟨table.size, fun fuel hfuel => ?_⟩
  have hpos : 0 < table.size := Nat.succ_pos _
  have hzero : regdumpStateVarInit = BitVec.ofNat 32 0 := rfl
  rw [fregdump, wp_zoom, hzero, wp_fregdumpLoop hint hpos (by omega)]
  exact ⟨rfl, rfl⟩

theorem lines_eq_iff {value value' : BitVec w → Nat} :
    table.lines value = table.lines value' ↔
      ∀ field ∈ table.fields, value field.mask = value' field.mask := by
  rw [lines, lines, List.cons.injEq, List.map_inj_left]
  constructor
  · rintro ⟨_, h⟩ field hfield
    exact fieldLine_inj (h field hfield)
  · intro h
    exact ⟨rfl, fun field hfield => by rw [h field hfield]⟩

end RegdumpTable

theorem eq_of_flatten_take {α : Type} {xs ys : List (List α)} (hlen : xs.length = ys.length)
    (h : ∀ k < xs.length, (xs.take (k + 1)).flatten = (ys.take (k + 1)).flatten) : xs = ys := by
  refine List.ext_getElem hlen fun i hi hi' => ?_
  have hbefore : (xs.take i).flatten = (ys.take i).flatten := by
    cases i with
    | zero => rfl
    | succ i => exact h i (by omega)
  have hwith := h i hi
  rw [List.take_succ_eq_append_getElem hi, List.take_succ_eq_append_getElem hi',
    List.flatten_append, List.flatten_append, hbefore] at hwith
  simpa using hwith

/-- What a register dump is to show, at once and a line at a time. -/
structure DumpsAligned (reg : BitVec w) (table : RegdumpTable w) : Prop where
  dump : ∀ out, Returns (fun fuel => fregdump fuel reg table.desc) out
    ((), out ++ (table.lines (alignedField reg)).flatten)
  single : ∀ out, ∀ count < table.size,
    wp (fregdumpSingles reg table.desc (count + 1))
      (fun results io =>
        io.out = out ++ ((table.lines (alignedField reg)).take (count + 1)).flatten ∧
          (results.getLast? = some 0 ↔ count + 1 = table.size))
      ⟨regdumpStateVarInit, out⟩

/-- An `int` can number the entries, and `ctz` finds the lowest bit of every mask that there
is anything under. -/
def WithinReach (reg : BitVec w) (table : RegdumpTable w) : Prop :=
  table.size < 2 ^ 31 ∧
    ∀ field ∈ table.fields, field.mask.ctz.toNat ≤ 32 ∨ reg &&& field.mask = 0

variable {reg : BitVec w} {table : RegdumpTable w}

theorem lines_aligned_iff :
    table.lines (RegdumpTable.shown reg) = table.lines (alignedField reg) ↔
      ∀ field ∈ table.fields, field.mask.ctz.toNat ≤ 32 ∨ reg &&& field.mask = 0 := by
  rw [RegdumpTable.lines_eq_iff]
  exact forall₂_congr fun field _ => toNat_shiftedField_eq_iff reg field.mask_ne_zero

theorem dumpsAligned_of_withinReach (h : WithinReach reg table) : DumpsAligned reg table where
  dump out := by
    rw [← lines_aligned_iff.mpr h.2]
    exact RegdumpTable.dump_returns h.1 out
  single out count hcount := by
    have hint := h.1
    rw [← lines_aligned_iff.mpr h.2, RegdumpTable.wp_fregdumpSingles hcount (by omega)]
    refine ⟨rfl, ?_⟩
    rw [List.range_succ, List.map_append, List.map_singleton, List.getLast?_concat,
      Option.some.injEq, RegdumpTable.stateAfter]
    by_cases hlast : count + 1 = table.size
    · rw [if_pos hlast]
      exact iff_of_true rfl hlast
    · rw [if_neg hlast]
      exact iff_of_false (RegdumpTable.state_ne_zero (by omega)) hlast

theorem withinReach_of_dumpsAligned (h : DumpsAligned reg table) : WithinReach reg table := by
  have hint : table.size < 2 ^ 31 := by
    by_contra hlarge
    obtain ⟨count, hcount⟩ : ∃ count, count + 1 = 2 ^ 31 := ⟨2 ^ 31 - 1, by decide⟩
    have hsingle := h.single [] count (by omega)
    rw [fregdumpSingles, wp_bind, RegdumpTable.wp_fregdumpSingles (by omega) (by omega), wp_bind,
      RegdumpTable.stateAfter, if_neg (by omega)] at hsingle
    exact RegdumpTable.not_wp_fregdumpSingle (by omega) hcount hsingle
  refine ⟨hint, lines_aligned_iff.mp (eq_of_flatten_take (by simp) fun count hcount => ?_)⟩
  rw [RegdumpTable.length_lines] at hcount
  have hsingle := h.single [] count hcount
  rw [RegdumpTable.wp_fregdumpSingles hcount (by omega)] at hsingle
  exact hsingle.1

/-- Whatever the width, a dump is right exactly if no field with bits in it starts above
bit 32 and there are not too many of them. -/
theorem fregdump_aligned_iff (configRegdump64 : Bool)
    (reg : BitVec (uintregBits configRegdump64))
    (table : RegdumpTable (uintregBits configRegdump64)) :
    DumpsAligned reg table ↔ WithinReach reg table :=
  ⟨withinReach_of_dumpsAligned, dumpsAligned_of_withinReach⟩

/-- The upper half of a 64-bit register. -/
def bit40 : RegdumpTable (uintregBits true) where
  register := ['R']
  registerMask := 0
  fields := [⟨['F'], 1 <<< 40, by decide⟩]
  endMask := 0

theorem fregdump_bit40 : ¬ DumpsAligned (1 <<< 40) bit40 := by
  intro h
  have hreach := (withinReach_of_dumpsAligned h).2 _ (List.mem_singleton_self _)
  revert hreach
  decide +kernel

end Librfn
