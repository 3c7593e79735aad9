import Librfn.Hex

/-!
# The reads of the parser

`hex_get_byte` again, with the text in memory and the pointers as offsets into
it.  A read behind the terminator is a fault, and so is a loop that goes on for
too long.  The state is the cursor of the caller.
-/

namespace Librfn

open Librfn.Logic

section

variable (text : List UInt8)

def skipSpaceAt : Nat → Nat → Prog (Option Nat) (Nat × Bool)
  | 0, _ => throw .outOfFuel
  | fuel + 1, s => do
      let b ← loadChar text s
      if isspace b then
        if b = 10 then return (s + 1, true)
        else skipSpaceAt fuel (s + 1)
      else return (s, false)

def afterColonAt (fuel s : Nat) : Prog (Option Nat) Nat := do
  match ← strchrFrom 58 text fuel s with
  | some q => return q + 1
  | none => return s

/-- `s[1]` is read only behind a zero. -/
def skipPrefixAt (s : Nat) : Prog (Option Nat) Nat := do
  let b ← loadChar text s
  if b = 48 then
    let c ← loadChar text (s + 1)
    if c = 120 then return s + 2
    else return s
  else return s

/-- The value of two digits; the second is read only behind the first. -/
def digitsAt (s : Nat) : Prog (Option Nat) (Option Int32) := do
  let b ← loadChar text s
  if isxdigit b then
    let c ← loadChar text (s + 1)
    if isxdigit c then return some (16 * nibble b ||| nibble c)
    else return none
  else return none

/-- The parser behind the choice of `s`.  Every line takes one of the fuel. -/
def hexGetByteFromAt : Nat → Nat → Prog (Option Nat) Int32
  | 0, _ => throw .outOfFuel
  | fuel + 1, s => do
      let (s, newline) ← skipSpaceAt text fuel s
      if newline then
        let s ← afterColonAt text fuel s
        hexGetByteFromAt fuel s
      else
        let s ← skipPrefixAt text s
        match ← digitsAt text s with
        | some b =>
            set (some (s + 2))
            return b
        | none =>
            let q ← strchrFrom 10 text fuel s
            set q
            match q with
            | some q =>
                let s ← afterColonAt text fuel (q + 1)
                hexGetByteFromAt fuel s
            | none => return -1

def hexGetByteAt (fuel : Nat) : Option Nat → Prog (Option Nat) Int32
  | some s => do
      let s ← afterColonAt text fuel s
      hexGetByteFromAt text fuel s
  | none => do
      match ← get with
      | none => return -1
      | some s => hexGetByteFromAt text fuel s

/-- The results of `n` calls and the cursors behind them.  Only the first call is
given a string. -/
def hexCalls (fuel : Nat) : Nat → Option Nat → Prog (Option Nat) (List (Int32 × Option Nat))
  | 0, _ => return []
  | n + 1, s => do
      let b ← hexGetByteAt text fuel s
      let p ← get
      let rest ← hexCalls fuel n none
      return (b, p) :: rest

end

variable {text s : List UInt8} {i : Nat}

theorem skipSpaceAt_spec (h : PointsTo text i s) {fuel : Nat} (hfuel : s.length < fuel)
    (p : Option Nat) :
    Prog.wp (skipSpaceAt text fuel i) (fun (j, newline) p' =>
      p' = p ∧ PointsTo text j (skipSpace s).1 ∧ newline = (skipSpace s).2) p := by
  induction s generalizing i fuel with
  | nil =>
      obtain ⟨fuel, rfl⟩ := Nat.exists_eq_add_of_lt hfuel
      simpa [skipSpaceAt, h.wp_loadChar, isspace, skipSpace] using h
  | cons b s ih =>
      obtain ⟨fuel, rfl⟩ := Nat.exists_eq_add_of_lt hfuel
      simp only [skipSpaceAt, Prog.wp_bind, h.wp_loadChar, charAt_cons_zero, Prog.wp_ite,
        Prog.wp_pure, skipSpace]
      split
      · split
        · exact ⟨trivial, h.next, rfl⟩
        · apply ih h.next
          rw [List.length_cons]
          omega
      · exact ⟨trivial, h, rfl⟩

theorem skipPrefixAt_spec (h : PointsTo text i s) (p : Option Nat) :
    Prog.wp (skipPrefixAt text i)
      (fun j p' => p' = p ∧ PointsTo text j (skipPrefix s)) p := by
  cases s with
  | nil => simpa [skipPrefixAt, h.wp_loadChar, skipPrefix] using h
  | cons b s =>
      simp only [skipPrefixAt, Prog.wp_bind, h.wp_loadChar, h.next.wp_loadChar, Prog.wp_ite,
        Prog.wp_pure, true_and, skipPrefix, charAt_cons_zero, charAt_cons_succ]
      split
      · split
        · rename_i hx
          have htwo : 2 ≤ (b :: s).length := by
            cases s with
            | nil => simp at hx
            | cons c s => simp
          simpa [*] using h.advance htwo
        · rename_i hzero hx
          simpa [hzero, hx] using h
      · simp [*]

theorem digitsAt_spec (h : PointsTo text i s) (p : Option Nat) :
    Prog.wp (digitsAt text i) (fun b p' => p' = p ∧
      b = if isxdigit (charAt s 0) ∧ isxdigit (charAt s 1) then
        some (16 * nibble (charAt s 0) ||| nibble (charAt s 1)) else none) p := by
  cases s with
  | nil => simp [digitsAt, h.wp_loadChar, isxdigit]
  | cons b s =>
      simp only [digitsAt, Prog.wp_bind, h.wp_loadChar, h.next.wp_loadChar, Prog.wp_ite,
        Prog.wp_pure, true_and, charAt_cons_zero, charAt_cons_succ]
      split
      · split <;> simp [*]
      · simp [*]

theorem afterColonAt_spec (h : PointsTo text i s) (hend : 0 ∉ text) {fuel : Nat}
    (hfuel : s.length < fuel) (p : Option Nat) :
    Prog.wp (afterColonAt text fuel i)
      (fun j p' => p' = p ∧ PointsTo text j (afterColon s)) p := by
  rw [afterColonAt, Prog.wp_bind]
  apply Prog.wp_mono (h.strchrFrom_spec (by decide) (h.not_mem hend) hfuel p)
  rintro q _ ⟨rfl, hq⟩
  cases hfound : strchr 58 s with
  | none =>
      rw [hfound] at hq
      cases hq
      simpa [afterColon, hfound] using h
  | some t =>
      rw [hfound] at hq
      cases hq with
      | some hq =>
          have hlength := length_strchr hfound
          simpa [afterColon, hfound] using hq.advance (n := 1) (by omega)

theorem hexGetByteFromAt_spec (hend : 0 ∉ text) (h : PointsTo text i s) {fuel : Nat}
    (hfuel : s.length + 1 < fuel) (p : Option Nat) :
    Prog.wp (hexGetByteFromAt text fuel i) (fun b q =>
      b = (hexGetByteFrom s).1 ∧ Option.Rel (PointsTo text) q (hexGetByteFrom s).2) p := by
  induction fuel generalizing i s p with
  | zero => omega
  | succ fuel ih =>
      have hskip := length_skipSpace s
      rw [hexGetByteFromAt, Prog.wp_bind]
      apply Prog.wp_mono (skipSpaceAt_spec h (by omega) p)
      rintro ⟨j, newline⟩ p' ⟨rfl, hj, rfl⟩
      by_cases hline : (skipSpace s).2 = true
      · rw [hexGetByteFrom_of_newline hline]
        rw [hline, Bool.toNat_true] at hskip
        have hcolon := length_afterColon (skipSpace s).1
        simp only [hline, if_true, Prog.wp_bind]
        apply Prog.wp_mono (afterColonAt_spec hj hend (by omega) p')
        rintro k _ ⟨rfl, hk⟩
        exact ih hk (by omega) _
      · have hprefix := length_skipPrefix (skipSpace s).1
        simp only [hline, Bool.false_eq_true, if_false, Prog.wp_bind]
        apply Prog.wp_mono (skipPrefixAt_spec hj p')
        rintro k _ ⟨rfl, hk⟩
        apply Prog.wp_mono (digitsAt_spec hk _)
        rintro b p ⟨rfl, hb⟩
        by_cases hbyte : StartsWithByte s
        · rw [hexGetByteFrom_of_byte hline hbyte]
          obtain rfl := hb.trans (if_pos hbyte)
          have htwo := two_le_length hbyte.1 hbyte.2
          exact ⟨rfl, .some (hk.advance htwo)⟩
        · rw [hexGetByteFrom_of_garbage hline hbyte]
          obtain rfl := hb.trans (if_neg hbyte)
          simp only [Prog.wp_bind]
          apply Prog.wp_mono (hk.strchrFrom_spec (by decide) (hk.not_mem hend) (by omega) p)
          rintro q _ ⟨rfl, hq⟩
          cases hfound : strchr 10 (skipPrefix (skipSpace s).1) with
          | none =>
              rw [hfound] at hq
              cases hq
              exact ⟨rfl, .none⟩
          | some line =>
              rw [hfound] at hq
              cases hq with
              | some hq =>
                  have hlength := length_strchr hfound
                  have hcolon := length_afterColon (line.drop 1)
                  have hrest := hq.advance (n := 1) (by omega)
                  have hless : (line.drop 1).length < fuel := by
                    rw [List.length_drop]
                    omega
                  rw [List.length_drop] at hcolon
                  simp only [Prog.wp_set, Prog.wp_bind]
                  apply Prog.wp_mono (afterColonAt_spec hrest hend hless _)
                  rintro j _ ⟨rfl, hj⟩
                  exact ih hj (by omega) _

/-- With fuel for the text, a call is the call on what the pointers point to.  The
cursor counts only where no string is given. -/
theorem hexGetByteAt_spec (hend : 0 ∉ text) {fuel : Nat} (hfuel : text.length + 1 < fuel)
    {a p : Option Nat} {a' p' : Option (List UInt8)} (ha : Option.Rel (PointsTo text) a a')
    (hp : a = none → Option.Rel (PointsTo text) p p') :
    Prog.wp (hexGetByteAt text fuel a) (fun b q =>
      b = (hexGetByte a' p').1 ∧ Option.Rel (PointsTo text) q (hexGetByte a' p').2) p := by
  cases ha with
  | some h =>
      rename_i i s
      have hlength := h.length
      have hcolon := length_afterColon s
      rw [hexGetByteAt, Prog.wp_bind]
      apply Prog.wp_mono (afterColonAt_spec h hend (by omega) p)
      rintro j _ ⟨rfl, hj⟩
      exact hexGetByteFromAt_spec hend hj (by omega) _
  | none =>
      rw [hexGetByteAt, Prog.wp_bind, Prog.wp_get]
      cases hp rfl with
      | some h =>
          have hlength := h.length
          exact hexGetByteFromAt_spec hend h (by omega) _
      | none => exact ⟨rfl, .none⟩

/-! ## Whole texts -/

/-- The results of the successful calls and the cursors behind them, of which the
first one is behind `i`. -/
structure Advancing (text : List UInt8) (i : Nat) (done : List (Int32 × Nat)) : Prop where
  bytes : ∀ call ∈ done, 0 ≤ call.1 ∧ call.1 ≤ 255
  further : (i :: done.map Prod.snd).Pairwise (· < ·)
  inside : ∀ call ∈ done, call.2 ≤ text.length

theorem Advancing.nil : Advancing text i [] := by constructor <;> simp

theorem Advancing.cons {b : Int32} {j : Nat} {done : List (Int32 × Nat)}
    (h : Advancing text j done) (hb : 0 ≤ b ∧ b ≤ 255) (hi : i < j) (hj : j ≤ text.length) :
    Advancing text i ((b, j) :: done) where
  bytes := by simpa using ⟨hb, fun m k => h.bytes (m, k)⟩
  further := by
    have hfurther := h.further
    rw [List.map_cons, List.pairwise_cons]
    refine ⟨?_, hfurther⟩
    intro k hk
    rcases List.mem_cons.mp hk with rfl | hk
    · exact hi
    · exact Nat.lt_trans hi ((List.pairwise_cons.mp hfurther).1 k hk)
  inside := by simpa using ⟨hj, fun m k => h.inside (m, k)⟩

theorem hexCalls_end (fuel k : Nat) : Prog.wp (hexCalls text fuel k none)
    (fun calls _ => calls = List.replicate k (-1, none)) none := by
  induction k with
  | zero => rfl
  | succ k ih =>
      simp only [hexCalls, hexGetByteAt, Prog.wp_bind, Prog.wp_get, Prog.wp_pure]
      apply Prog.wp_mono ih
      rintro calls q rfl
      rfl

/-- What a call does does not depend on the fuel.  `s` is what the parser is left
with behind the choice of `s`. -/
theorem hexGetByteAt_step (hend : 0 ∉ text) {a p : Option Nat} {a' p' : Option (List UInt8)}
    (ha : Option.Rel (PointsTo text) a a') (hp : a = none → Option.Rel (PointsTo text) p p')
    (hcall : hexGetByte a' p' = hexGetByteFrom s) :
    (∃ b t j, (0 ≤ b ∧ b ≤ 255) ∧ t.length < s.length ∧ PointsTo text j t ∧
      ∀ fuel, text.length + 1 < fuel → hexGetByteAt text fuel a p = .ok (b, some j)) ∨
    ∀ fuel, text.length + 1 < fuel → hexGetByteAt text fuel a p = .ok (-1, none) := by
  have hruns : ∀ fuel, text.length + 1 < fuel → ∃ q, hexGetByteAt text fuel a p =
      .ok ((hexGetByteFrom s).1, q) ∧ Option.Rel (PointsTo text) q (hexGetByteFrom s).2 := by
    intro fuel hfuel
    rw [← hcall]
    obtain ⟨_, q, hrun, rfl, hq⟩ :=
      Prog.wp_iff_exists.mp (hexGetByteAt_spec hend hfuel ha hp)
    exact ⟨q, hrun, hq⟩
  rcases hexGetByteFrom_spec s with ⟨b, t, hbyte, hrange, hless⟩ | hlast
  · rw [hbyte] at hruns
    obtain ⟨_, -, hj⟩ := hruns (text.length + 2) (by omega)
    cases hj with
    | some hj =>
        refine .inl ⟨b, t, _, hrange, hless, hj, ?_⟩
        intro fuel hfuel
        obtain ⟨_, hrun, hq⟩ := hruns fuel hfuel
        cases hq with
        | some hq =>
            -- The rest of the text tells the offset.
            rw [hrun, Nat.add_right_cancel (hq.length.trans hj.length.symm)]
  · rw [hlast] at hruns
    refine .inr ?_
    intro fuel hfuel
    obtain ⟨_, hrun, hq⟩ := hruns fuel hfuel
    cases hq
    exact hrun

theorem hexCalls_spec (hend : 0 ∉ text) {a p : Option Nat} {a' p' : Option (List UInt8)}
    (ha : Option.Rel (PointsTo text) a a') (hp : a = none → Option.Rel (PointsTo text) p p')
    (hcall : hexGetByte a' p' = hexGetByteFrom s) (hi : i + s.length ≤ text.length) :
    ∃ done, Advancing text i done ∧ ∀ fuel k, text.length + 1 < fuel →
      Prog.wp (hexCalls text fuel (done.length + k) a) (fun calls _ => calls =
        done.map (fun call => (call.1, some call.2)) ++ List.replicate k (-1, none)) p := by
  induction hn : s.length using Nat.strongRecOn generalizing s i a p a' p' with
  | ind n ih =>
      subst hn
      rcases hexGetByteAt_step hend ha hp hcall with ⟨b, t, j, hrange, hless, hj, hrun⟩ | hlast
      · have hlength := hj.length
        obtain ⟨done, hdone, hcalls⟩ :=
          ih t.length hless .none (fun _ => .some hj) rfl (i := j) (by omega) rfl
        refine ⟨(b, j) :: done, hdone.cons hrange (by omega) hj.le, ?_⟩
        intro fuel k hfuel
        rw [List.length_cons, Nat.add_right_comm]
        simp only [hexCalls, Prog.wp_bind, Prog.wp_get, Prog.wp_pure]
        apply Prog.wp_of_eq (hrun fuel hfuel)
        apply Prog.wp_mono (hcalls fuel k hfuel)
        rintro calls _ rfl
        rfl
      · refine ⟨[], .nil, ?_⟩
        intro fuel k hfuel
        cases k with
        | zero => rfl
        | succ k =>
            rw [List.length_nil, Nat.zero_add]
            simp only [hexCalls, Prog.wp_bind, Prog.wp_get, Prog.wp_pure]
            apply Prog.wp_of_eq (hlast fuel hfuel)
            apply Prog.wp_mono (hexCalls_end fuel k)
            rintro calls _ rfl
            rfl

theorem hex_get_byte_total (text : List UInt8) (hend : 0 ∉ text) (p : Option Nat) :
    ∃ done, Advancing text 0 done ∧ ∀ fuel k, text.length + 1 < fuel →
      Prog.wp (hexCalls text fuel (done.length + k) (some 0)) (fun calls _ => calls =
        done.map (fun call => (call.1, some call.2)) ++ List.replicate k (-1, none)) p := by
  have hstart : PointsTo text 0 text := ⟨Nat.zero_le _, rfl⟩
  have hcolon := length_afterColon text
  have hcall : hexGetByte (some text) none = hexGetByteFrom (afterColon text) := rfl
  exact hexCalls_spec hend (.some hstart) nofun hcall (by omega)

/-- A zero at the end, and a digit without a second one. -/
theorem hex_get_byte_total_cut :
    ∃ done, Advancing [48, 120, 52, 49, 48] 0 done ∧ ∀ fuel k, 6 < fuel →
      Prog.wp (hexCalls [48, 120, 52, 49, 48] fuel (done.length + k) (some 0))
        (fun calls _ => calls =
          done.map (fun call => (call.1, some call.2)) ++ List.replicate k (-1, none)) none :=
  hex_get_byte_total [48, 120, 52, 49, 48] (by decide) none

end Librfn
