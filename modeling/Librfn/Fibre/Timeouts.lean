import Librfn.Fibre.Calls

/-!
# Several timeouts in one dispatch

A fibre may call `fibre_timeout` as often as it likes before its function
returns.  `fibre_timeout` does not look whether the fibre is on the timer queue
already, so the second call that returns false links the fibre to itself.
-/

namespace Librfn

open Librfn.Logic

variable {F : Type} [DecidableEq F]

def fibreTimeouts (fuel : Nat) : List (BitVec 32) → Prog (World F) Unit
  | [] => pure ()
  | duetime :: duetimes => do
      let _ ← fibreTimeout fuel duetime
      fibreTimeouts fuel duetimes

def World.Ahead (w : World F) (duetime : BitVec 32) : Prop :=
  0 < cyclecmp32 duetime w.kernel.now

instance (w : World F) : DecidablePred w.Ahead :=
  fun _ => inferInstanceAs (Decidable (_ < _))

def World.DueInOrder (w : World F) (timerq : List F) : Prop :=
  (∀ f ∈ timerq, w.Ahead (w.fibre f).duetime) ∧
    timerq.Pairwise fun f g =>
      cyclecmp32 (w.fibre f).duetime w.kernel.now ≤
        cyclecmp32 (w.fibre g).duetime w.kernel.now

/-- The calls return, both queues are well formed afterwards, `f` is on the
timer queue at most once, the others are there as before, and the timers are in
order if they were. -/
def World.TimeoutsSafe (w : World F) (f : F) (duetimes : List (BitVec 32)) :
    Prop :=
  ∀ runq timerq, w.Queues runq timerq → ∃ w' timerq',
    Prog.Returns (fun fuel => fibreTimeouts fuel duetimes) w ((), w') ∧
      w'.Queues runq timerq' ∧ timerq'.count f ≤ 1 ∧
      timerq'.filter (· ≠ f) = timerq.filter (· ≠ f) ∧
      (w.DueInOrder timerq → w'.DueInOrder timerq')

/-- No time is ahead, or the current fibre is on the run queue, or it is `f`,
it is not on the timer queue and one time at most is ahead. -/
def World.TimeoutsApart (w : World F) (f : F) (duetimes : List (BitVec 32)) :
    Prop :=
  (∀ duetime ∈ duetimes, ¬ w.Ahead duetime) ∨
    ∃ g, w.kernel.current = some g ∧ ∀ runq timerq, w.Queues runq timerq →
      g ∈ runq ∨ g = f ∧ f ∉ timerq ∧ duetimes.countP (w.Ahead ·) ≤ 1

section Timeouts

variable {w w' : World F} {s : Sched F} {f g : F} {duetime : BitVec 32}
  {duetimes : List (BitVec 32)}

theorem fibreTimeouts_monotone (duetimes : List (BitVec 32)) :
    Prog.Monotone (fun fuel => fibreTimeouts (F := F) fuel duetimes) := by
  intro fuel
  induction duetimes with
  | nil => exact .refl _
  | cons duetime duetimes ih => exact .bind (fibreTimeout_le fuel duetime) fun _ => ih

theorem fibreTimeouts_cons :
    Prog.Returns (fun fuel => fibreTimeouts fuel (duetime :: duetimes)) w ((), w') ↔
      ∃ res w₁, Prog.Returns (fun fuel => fibreTimeout fuel duetime) w (res, w₁) ∧
        Prog.Returns (fun fuel => fibreTimeouts fuel duetimes) w₁ ((), w') := by
  constructor
  · intro h
    exact Prog.Returns.of_bind (fun fuel => fibreTimeout_le fuel duetime)
      (fun _ => fibreTimeouts_monotone duetimes) h
  · rintro ⟨res, w₁, hfirst, hrest⟩
    exact Prog.Returns.bind hfirst hrest

theorem fibreTimeout_notAhead (h : ¬ w.Ahead duetime) :
    Prog.Returns (fun fuel => fibreTimeout fuel duetime) w (true, w) := by
  have hpast : cyclecmp32 duetime w.kernel.now ≤ 0 := Int.not_lt.mp h
  refine Prog.Returns.of_forall_wp ⟨0, fun fuel _ => ?_⟩
  rw [fibreTimeout, Prog.wp_bind, Prog.wp_get]
  dsimp only
  rw [if_pos hpast]
  exact ⟨rfl, rfl⟩

theorem fibreTimeouts_notAhead (h : ¬ w.Ahead duetime) :
    Prog.Returns (fun fuel => fibreTimeouts fuel (duetime :: duetimes)) w ((), w') ↔
      Prog.Returns (fun fuel => fibreTimeouts fuel duetimes) w ((), w') := by
  rw [fibreTimeouts_cons]
  constructor
  · rintro ⟨res, w₁, hfirst, hrest⟩
    cases hfirst.unique (fibreTimeout_notAhead h)
    exact hrest
  · exact fun hrest => ⟨true, w, fibreTimeout_notAhead h, hrest⟩

/-! ## One call for a time ahead -/

theorem fibreTimeout_ahead (h : w.Represents s) (hahead : w.Ahead duetime)
    (hcurrent : s.current = some g) (hfree : g ∉ s.timerq) : ∃ w',
    Prog.Returns (fun fuel => fibreTimeout fuel duetime) w (false, w') ∧
      w'.Represents (s.arm g duetime) := by
  have hfuture : ¬ cyclecmp32 duetime s.now ≤ 0 := by
    rw [← h.scalars.2.2.1]
    exact Int.not_le.mpr hahead
  obtain ⟨_, w', hret, rfl, hw'⟩ := Prog.exists_returns
    (fun fuel => fibreTimeout_le fuel duetime)
    (fibreTimeout_arm h hfuture hcurrent hfree (Nat.lt_succ_self _))
  exact ⟨w', hret, hw'⟩

theorem toInt_sub_of_ahead {a b now : BitVec 32} (ha : 0 < cyclecmp32 a now)
    (hb : 0 < cyclecmp32 b now) :
    (a - b).toInt = cyclecmp32 a now - cyclecmp32 b now := by
  unfold cyclecmp32 at *
  have hsub : a - b = (a - now) - (b - now) := by
    rw [BitVec.sub_sub, ← BitVec.sub_sub]
    bv_omega
  have halt := BitVec.toInt_lt (x := a - now)
  have hblt := BitVec.toInt_lt (x := b - now)
  rw [hsub, BitVec.toInt_sub]
  exact Int.bmod_eq_of_le_mul_two (by omega) (by omega)

theorem World.DueInOrder.arm (hw : w.Represents s)
    (hw' : w'.Represents (s.arm f duetime)) (hahead : w.Ahead duetime)
    (hfree : f ∉ s.timerq) (h : w.DueInOrder s.timerq) :
    w'.DueInOrder (s.arm f duetime).timerq := by
  obtain ⟨-, -, hnow, hfibre, -⟩ := hw.scalars
  obtain ⟨-, -, hnow', hfibre', -⟩ := hw'.scalars
  have hnow₁ : w'.kernel.now = w.kernel.now := hnow'.trans hnow.symm
  have hself : (w'.fibre f).duetime = duetime := by
    rw [hfibre']
    simp [Sched.arm]
  have hother : ∀ g ∈ s.timerq, (w'.fibre g).duetime = (w.fibre g).duetime := by
    intro g hg
    have hne : g ≠ f := fun heq => hfree (heq ▸ hg)
    rw [hfibre', hfibre]
    simp [Sched.arm, Function.update_of_ne hne]
  have hkept : w'.DueInOrder s.timerq := by
    refine ⟨fun g hg => ?_, h.2.imp_of_mem fun {g g'} hg hg' hle => ?_⟩
    · unfold World.Ahead
      rw [hother g hg, hnow₁]
      exact h.1 g hg
    · rwa [hother g hg, hother g' hg', hnow₁]
  unfold Sched.arm
  dsimp only
  split
  · exact hkept
  · constructor
    · intro g hg
      rcases List.mem_cons.mp ((insertSorted_perm _ _ _).subset hg) with rfl | hold
      · unfold World.Ahead
        rw [hself, hnow₁]
        exact hahead
      · exact hkept.1 g hold
    · refine insertSorted_pairwise hkept.2 (fun _ _ _ => Int.le_trans) ?_
      intro g hg
      have hcmp : duetimeCmp (Function.update s.fibre f
          { s.fibre f with duetime }) f g =
          cyclecmp32 (w'.fibre f).duetime w'.kernel.now -
            cyclecmp32 (w'.fibre g).duetime w'.kernel.now := by
        rw [← toInt_sub_of_ahead (by rw [hself, hnow₁]; exact hahead) (hkept.1 g hg),
          hfibre']
        rfl
      rw [hcmp]
      split <;> omega

omit [DecidableEq F] in
theorem ahead_congr (hw : w.Represents s) {s' : Sched F} (hw' : w'.Represents s')
    (hnow : s'.now = s.now) (duetime : BitVec 32) :
    w'.Ahead duetime ↔ w.Ahead duetime := by
  unfold World.Ahead
  rw [hw'.scalars.2.2.1, hw.scalars.2.2.1, hnow]

/-! ## Calls that are apart -/

def Sched.TimeoutsApart (s : Sched F) (w : World F) (f : F)
    (duetimes : List (BitVec 32)) : Prop :=
  (∀ duetime ∈ duetimes, ¬ w.Ahead duetime) ∨
    ∃ g, s.current = some g ∧
      (g ∈ s.runq ∨ g = f ∧ f ∉ s.timerq ∧ duetimes.countP (w.Ahead ·) ≤ 1)

omit [DecidableEq F] in
theorem timeoutsApart_iff (h : w.Represents s) (f : F)
    (duetimes : List (BitVec 32)) :
    w.TimeoutsApart f duetimes ↔ s.TimeoutsApart w f duetimes := by
  unfold World.TimeoutsApart Sched.TimeoutsApart
  rw [h.scalars.1]
  refine or_congr Iff.rfl (exists_congr fun g => and_congr Iff.rfl ⟨?_, ?_⟩)
  · exact fun hg => hg _ _ h.queues
  · intro hg runq timerq hqueues
    obtain ⟨rfl, rfl⟩ := hqueues.unique h.queues
    exact hg

omit [DecidableEq F] in
theorem Sched.timeoutsApart_notAhead (h : ¬ w.Ahead duetime) :
    s.TimeoutsApart w f (duetime :: duetimes) ↔ s.TimeoutsApart w f duetimes := by
  unfold Sched.TimeoutsApart
  simp [h]

theorem fibreTimeouts_apart (h : w.Represents s) (hdistinct : s.Distinct)
    (hapart : s.TimeoutsApart w f duetimes) : ∃ w' s',
    Prog.Returns (fun fuel => fibreTimeouts fuel duetimes) w ((), w') ∧
      w'.Represents s' ∧ s'.runq = s.runq ∧
      s'.timerq.filter (· ≠ f) = s.timerq.filter (· ≠ f) ∧
      (w.DueInOrder s.timerq → w'.DueInOrder s'.timerq) := by
  induction duetimes generalizing w s with
  | nil => exact ⟨w, s, .pure () w, h, rfl, rfl, id⟩
  | cons duetime duetimes ih =>
      by_cases hahead : w.Ahead duetime
      · obtain ⟨g, hcurrent, hg⟩ := hapart.resolve_left fun hnone =>
          hnone duetime List.mem_cons_self hahead
        have hfree : g ∉ s.timerq := by
          rcases hg with hrunq | ⟨rfl, hfree, -⟩
          · exact hdistinct.not_mem hrunq
          · exact hfree
        obtain ⟨w₁, hret, h₁⟩ := fibreTimeout_ahead h hahead hcurrent hfree
        have hahead₁ := ahead_congr h h₁ rfl
        have hapart₁ : (s.arm g duetime).TimeoutsApart w₁ f duetimes := by
          rcases hg with hrunq | ⟨rfl, -, hcount⟩
          · exact .inr ⟨g, hcurrent, .inl hrunq⟩
          · rw [List.countP_cons_of_pos (by simpa using hahead)] at hcount
            have hzero : duetimes.countP (w.Ahead ·) = 0 := by omega
            rw [List.countP_eq_zero] at hzero
            refine .inl fun d hd => ?_
            rw [hahead₁]
            simpa using hzero d hd
        have hfilter : (s.arm g duetime).timerq.filter (· ≠ f) =
            s.timerq.filter (· ≠ f) := by
          unfold Sched.arm
          dsimp only
          split
          · rfl
          · rename_i hrunq
            obtain ⟨rfl, -⟩ := hg.resolve_left hrunq
            exact insertSorted_filter _ g _
        obtain ⟨w', s', hrest, h', hrunq', hfilter', horder'⟩ :=
          ih h₁ (Sched.arm_distinct hfree duetime hdistinct) hapart₁
        exact ⟨w', s', fibreTimeouts_cons.mpr ⟨false, w₁, hret, hrest⟩, h', hrunq',
          hfilter'.trans hfilter, fun horder =>
            horder' (horder.arm h h₁ hahead hfree)⟩
      · rw [Sched.timeoutsApart_notAhead hahead] at hapart
        obtain ⟨w', s', hrest, hkept⟩ := ih h hdistinct hapart
        exact ⟨w', s', (fibreTimeouts_notAhead hahead).mpr hrest, hkept⟩

/-! ## Calls that are not -/

def World.Looped (w : World F) (f : F) : Prop :=
  w.kernel.current = some f ∧ w.kernel.lists.link (.next f) = some (.next f)

omit [DecidableEq F] in
theorem World.Looped.not_queues (h : w.Looped f) {runq timerq : List F} :
    ¬ w.Queues runq timerq := fun hqueues => hqueues.link_ne_self f h.2

/-- No later call repairs the queue: the fibre counts as queued, or the
assertion of `list_insert_sorted` fails. -/
theorem World.Looped.fibreTimeout (h : w.Looped f) {fuel : Nat} {res : Bool}
    (hret : fibreTimeout fuel duetime w = .ok (res, w')) : w'.Looped f := by
  have hwp := Prog.wp_of_eq (Q := fun _ t => t = w') hret rfl
  rw [Librfn.fibreTimeout, Prog.wp_bind, Prog.wp_get] at hwp
  dsimp only at hwp
  split at hwp
  · obtain rfl : w = w' := hwp
    exact h
  · rw [h.1] at hwp
    simp only [Prog.wp_bind, Prog.wp_modify, onLists, wp_onKernel,
      Prog.wp_zoom] at hwp
    obtain ⟨r, lists, hsearch, hwp⟩ := Prog.wp_iff_exists.mp hwp
    obtain rfl := (ListMem.listContains_keeps fuel KernelList.runq f).eq hsearch
    split at hwp
    · simp only [Prog.wp_bind, Prog.wp_get, wp_onKernel, Prog.wp_zoom,
        listInsertSorted, wp_load, Prog.wp_assert, h.2, reduceCtorEq,
        false_and] at hwp
    · obtain rfl : _ = w' := hwp
      exact h

theorem World.Looped.fibreTimeouts (h : w.Looped f)
    (hret : Prog.Returns (fun fuel => fibreTimeouts fuel duetimes) w ((), w')) :
    w'.Looped f := by
  induction duetimes generalizing w with
  | nil =>
      cases hret.unique (.pure () w)
      exact h
  | cons duetime duetimes ih =>
      obtain ⟨_, w₁, ⟨enough, hfirst⟩, hrest⟩ := fibreTimeouts_cons.mp hret
      exact ih (h.fibreTimeout (hfirst enough (Nat.le_refl _))) hrest

theorem fibreTimeout_again (h : w.Represents s) (hahead : w.Ahead duetime)
    (hcurrent : s.current = some g) (hwaits : g ∈ s.timerq) {res : Bool}
    (hret : Prog.Returns (fun fuel => fibreTimeout fuel duetime) w (res, w')) :
    w'.Looped g := by
  have hrunq : g ∉ s.runq := fun hin =>
    h.queues.disjoint .runq .timerq nofun hin hwaits
  obtain ⟨hcurrent', -, -, hfibre, -⟩ := h.scalars
  obtain ⟨enough, hret⟩ := hret
  have hret := hret (max enough (s.runq.length + 1)) (Nat.le_max_left _ _)
  generalize hfuel : max enough (s.runq.length + 1) = fuel at hret
  have hwp := Prog.wp_of_eq (Q := fun _ t => t = w') hret rfl
  have hfuture : ¬ cyclecmp32 duetime w.kernel.now ≤ 0 := Int.not_le.mpr hahead
  rw [fibreTimeout, Prog.wp_bind, Prog.wp_get] at hwp
  dsimp only at hwp
  rw [if_neg hfuture, hcurrent', hcurrent] at hwp
  simp only [Prog.wp_bind, Prog.wp_modify, hfibre] at hwp
  obtain ⟨lists, mq, buf, m, hw, hlists, -⟩ :=
    h.withFibre (Function.update s.fibre g { s.fibre g with duetime })
  rw [hw, wp_onLists] at hwp
  have hsearch : Prog.wp (listContains fuel .runq g) (fun r lists' =>
      r.1 = false ∧ lists' = lists) lists := by
    refine Prog.wp_mono (ListMem.listContains_spec hlists
      (show s.runq.length < fuel by omega)) ?_
    rintro r _ ⟨hr, rfl⟩
    exact ⟨by rw [hr]; exact decide_eq_false hrunq, rfl⟩
  obtain ⟨r, _, -, ⟨hr, rfl⟩, hrest⟩ :=
    Prog.wp_iff_exists.mp (Prog.wp_and hsearch hwp)
  simp only [hr, Bool.false_eq_true, not_false_eq_true, if_true, Prog.wp_bind,
    Prog.wp_get, wp_onLists, Prog.wp_pure] at hrest
  obtain ⟨_, lists', hinsert, rfl⟩ := Prog.wp_iff_exists.mp hrest
  refine ⟨hcurrent, ListMem.listInsertSorted_again hlists
    (show g ∈ Sched.seq _ .timerq from hwaits) ?_ hinsert⟩
  simp [duetimeCmp]

theorem fibreTimeouts_again (h : w.Represents s) (hcurrent : s.current = some g)
    (hwaits : g ∈ s.timerq)
    (hret : Prog.Returns (fun fuel => fibreTimeouts fuel duetimes) w ((), w')) :
    (∀ duetime ∈ duetimes, ¬ w.Ahead duetime) ∧ w' = w ∨ w'.Looped g := by
  induction duetimes with
  | nil =>
      cases hret.unique (.pure () w)
      exact .inl ⟨nofun, rfl⟩
  | cons duetime duetimes ih =>
      by_cases hahead : w.Ahead duetime
      · obtain ⟨_, w₁, hfirst, hrest⟩ := fibreTimeouts_cons.mp hret
        exact .inr ((fibreTimeout_again h hahead hcurrent hwaits hfirst).fibreTimeouts
          hrest)
      · rcases ih ((fibreTimeouts_notAhead hahead).mp hret) with ⟨hnone, rfl⟩ | hloop
        · exact .inl ⟨List.forall_mem_cons.mpr ⟨hahead, hnone⟩, rfl⟩
        · exact .inr hloop

theorem timeoutsApart_of_returns (h : w.Represents s)
    (hret : Prog.Returns (fun fuel => fibreTimeouts fuel duetimes) w ((), w'))
    {runq timerq : List F} (hqueues : w'.Queues runq timerq)
    (hfilter : timerq.filter (· ≠ f) = s.timerq.filter (· ≠ f)) :
    s.TimeoutsApart w f duetimes := by
  induction duetimes with
  | nil => exact .inl nofun
  | cons duetime duetimes ih =>
      by_cases hahead : w.Ahead duetime
      · have hfuture : ¬ cyclecmp32 duetime w.kernel.now ≤ 0 :=
          Int.not_le.mpr hahead
        obtain ⟨_, w₁, hfirst, hrest⟩ := fibreTimeouts_cons.mp hret
        cases hcurrent : s.current with
        | none =>
            obtain ⟨enough, hfirst⟩ := hfirst
            exact absurd (hfirst enough (Nat.le_refl _))
              (System.fibreTimeout_null hfuture (h.scalars.1.trans hcurrent) _ _)
        | some g =>
            refine .inr ⟨g, hcurrent, or_iff_not_imp_left.mpr fun hrunq => ?_⟩
            by_cases hwaits : g ∈ s.timerq
            · rcases fibreTimeouts_again h hcurrent hwaits hret with ⟨hnone, -⟩ | hloop
              · exact absurd hahead (hnone duetime List.mem_cons_self)
              · exact absurd hqueues hloop.not_queues
            · obtain ⟨w₂, hfirst', h₁⟩ := fibreTimeout_ahead h hahead hcurrent hwaits
              cases hfirst.unique hfirst'
              have harmed : g ∈ (s.arm g duetime).timerq := by
                simp only [Sched.arm, hrunq, if_false]
                exact (insertSorted_perm _ _ _).symm.subset List.mem_cons_self
              rcases fibreTimeouts_again h₁ hcurrent harmed hrest with
                ⟨hnone, rfl⟩ | hloop
              · obtain ⟨-, rfl⟩ := hqueues.unique h₁.queues
                have hg : g = f := by
                  by_contra hne
                  have hmem : g ∈ (s.arm g duetime).timerq.filter (· ≠ f) :=
                    List.mem_filter.mpr ⟨harmed, decide_eq_true hne⟩
                  rw [hfilter] at hmem
                  exact hwaits (List.mem_filter.mp hmem).1
                subst hg
                have hzero : duetimes.countP (w.Ahead ·) = 0 := by
                  rw [List.countP_eq_zero]
                  intro d hd
                  rw [decide_eq_true_eq, ← ahead_congr h h₁ rfl]
                  exact hnone d hd
                exact ⟨rfl, hwaits, by
                  rw [List.countP_cons_of_pos (by simpa using hahead), hzero]⟩
              · exact absurd hqueues hloop.not_queues
      · rw [Sched.timeoutsApart_notAhead hahead]
        exact ih ((fibreTimeouts_notAhead hahead).mp hret)

end Timeouts

namespace System

/-- In every state that a run reaches without putting a fibre on the timer
queue twice, the calls of `fibre_timeout` that a fibre makes in one dispatch are
safe exactly if they are apart. -/
theorem several_timeouts_iff {atomicRunqBuf : Nat} {eventq : F → Messageq}
    {steps : List (Step F)} {sys : System F}
    (hrun : Run (FreeNext AnyCalls) (init atomicRunqBuf eventq) steps sys) (f : F)
    (duetimes : List (BitVec 32)) :
    (∃ runq timerq, sys.world.Queues runq timerq) ∧
      (sys.world.TimeoutsSafe f duetimes ↔ sys.world.TimeoutsApart f duetimes) := by
  obtain ⟨s, hs⟩ := run_tidy (fun _ _ _ => id) hrun
  have h := hs.represents
  refine ⟨⟨_, _, h.queues⟩, ?_⟩
  rw [timeoutsApart_iff h]
  constructor
  · intro hsafe
    obtain ⟨w', timerq', hret, hqueues, -, hfilter, -⟩ := hsafe _ _ h.queues
    exact timeoutsApart_of_returns h hret hqueues hfilter
  · intro hapart runq timerq hqueues
    obtain ⟨rfl, rfl⟩ := hqueues.unique h.queues
    obtain ⟨w', s', hret, h', hrunq, hfilter, horder⟩ :=
      fibreTimeouts_apart h hs.sound.distinct hapart
    exact ⟨w', s'.timerq, hret, hrunq ▸ h'.queues,
      List.nodup_iff_count_le_one.mp (h'.queues.nodup .timerq) f, hfilter, horder⟩

/-- A fibre tests a time that has come and one that has not. -/
theorem several_timeouts_iff_one_ahead : ∃ sys : System Bool,
    Run (FreeNext AnyCalls) (init 64 fun _ => messageqInit 0 32 4)
      [{ action := .run true }, { action := .schedulerNext 7 }] sys ∧
      (sys.world.TimeoutsSafe true [5, 9] ↔
        sys.world.TimeoutsApart true [5, 9]) := by
  have hsome : (follow (F := Bool) AnyCalls 9
      [{ action := .run true }, { action := .schedulerNext 7 }]
      (init 64 fun _ => messageqInit 0 32 4)).isSome = true := by
    decide +kernel
  obtain ⟨sys, hsys⟩ := Option.isSome_iff_exists.mp hsome
  have hrun := freeRun_of_run (follow_run hsys) (by simp)
  exact ⟨sys, hrun, (several_timeouts_iff hrun true [5, 9]).2⟩

/-- A fibre that waits for whichever of two times comes first is linked to
itself. -/
theorem several_timeouts_loop : ∃ sys : System Bool,
    Run (FreeNext AnyCalls) (init 64 fun _ => messageqInit 0 32 4)
      [{ action := .run true }, { action := .schedulerNext 0 }] sys ∧
      sys.frames.map Frame.fibre = [true] ∧
      ¬ sys.world.TimeoutsSafe true [5, 7] := by
  have hsome : (follow (F := Bool) AnyCalls 9
      [{ action := .run true }, { action := .schedulerNext 0 }]
      (init 64 fun _ => messageqInit 0 32 4)).any (fun sys =>
        sys.frames.map Frame.fibre = [true] ∧
          Prog.wp (fibreTimeouts 9 [5, 7]) (fun _ w =>
            w.kernel.lists.link (.next true) = some (.next true)) sys.world) =
      true := by
    decide +kernel
  obtain ⟨sys, hsys, hpost⟩ := (Option.any_eq_true _ _).mp hsome
  obtain ⟨hframes, hloop⟩ := of_decide_eq_true hpost
  refine ⟨sys, freeRun_of_run (follow_run hsys) (by simp), hframes, fun hsafe => ?_⟩
  have hrun := freeRun_of_run (follow_run hsys) (by simp)
  obtain ⟨s, hs⟩ := run_tidy (fun _ _ _ => id) hrun
  obtain ⟨w', _, hret, hqueues, -⟩ := hsafe _ _ hs.represents.queues
  exact hqueues.link_ne_self true
    (hret.of_wp (fibreTimeouts_monotone [5, 7]) hloop)

end System

end Librfn
