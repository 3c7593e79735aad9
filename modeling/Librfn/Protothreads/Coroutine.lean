import Librfn.Protothreads
import Librfn.Logic.Resumable

/-!
# A protothread is a coroutine

The body of a protothread can be read as written: as a thread that is left at a
`PT_WAIT`, a `PT_YIELD` or a `PT_SPAWN` and goes on from there.  What is left of
it is kept as a syntax tree, and line numbers play no role.  The `switch` that
the macros expand to has the same histories.
-/

namespace Librfn.Protothread

open Librfn.Logic

variable {σ : Type}

/-- What a thread that has been left still has to do. -/
inductive Suspended (σ : Type) where
  | after
  | polling (c : Code (Locals σ) Bool)
  | awaiting (thread : Code (Locals σ) PtState)
  | within (k : Suspended σ) (t : Thread σ)

/-- How a thread is left; there is nothing left of one that has ended. -/
structure Leave (σ : Type) where
  result : PtState
  rest : Option (Suspended σ)
  finished : rest = none ↔ active result = false

abbrev Running (σ : Type) := Code (Locals σ) (Option (Leave σ))

def suspend (result : PtState) (k : Suspended σ) (h : active result = true) : Running σ :=
  .pure (some ⟨result, some k, by simp [h]⟩)

def finish (result : PtState) (h : active result = false) : Running σ :=
  .pure (some ⟨result, none, by simp [h]⟩)

def poll (c : Code (Locals σ) Bool) : Running σ :=
  c.bind fun b => if b then .pure none else suspend .waiting (.polling c) rfl

def await (thread : Code (Locals σ) PtState) : Running σ :=
  (assignSpawnRes thread).bind fun _ => (Code.lift get).bind fun l =>
    if h : active l.spawnRes = true then suspend l.spawnRes (.awaiting thread) h
    else .pure none

/-- What stands after a thread is done after what is left of it. -/
def Leave.before (t : Thread σ) (l : Leave σ) : Leave σ where
  result := l.result
  rest := l.rest.map fun k => .within k t
  finished := Option.map_eq_none_iff.trans l.finished

def before (t : Thread σ) (m : Running σ) : Running σ :=
  m.bind fun o => .pure (o.map (Leave.before t))

def Thread.run : Thread σ → Running σ
  | .skip => .pure none
  | .act m => m.bind fun _ => .pure none
  | .seq t u => (before u t.run).andThen u.run
  | .ite c t u => c.bind fun b => if b then t.run else u.run
  | .loop c t => .whileLoop c (before (.loop c t) t.run)
  | .wait _ => suspend .waiting .after rfl
  | .waitUntil _ c => poll c
  | .yield _ => suspend .yielded .after rfl
  | .exit => finish .exited rfl
  | .fail => finish .failed rfl
  | .spawn _ init thread => init.bind fun _ => await thread

def Suspended.resume : Suspended σ → Running σ
  | .after => .pure none
  | .polling c => poll c
  | .awaiting thread => await thread
  | .within k t => (before t k.resume).andThen t.run

def resumeCall : Code (Suspended σ × σ) PtState :=
  (Code.lift get).bind fun s =>
    (Code.zoom (fun s => (⟨.yielded, s.2⟩ : Locals σ)) (fun l s => (s.1, l.vars)) s.1.resume).bind
      fun
      | none => .pure .exited
      | some l =>
          (Code.lift (modify fun s => (l.rest.getD s.1, s.2))).bind fun _ => .pure l.result

def coroutine (t : Thread σ) : Resumable (Suspended σ) σ PtState :=
  ⟨.within .after t, fun res => !active res, resumeCall⟩

def ptThread (t : Thread σ) : Resumable (BitVec 16) σ PtState :=
  ⟨0, fun res => !active res,
    .zoom (fun s => ⟨s.1, s.2⟩) (fun a _ => (a.pt, a.vars)) (ptFunction t.expand)⟩

/-! ## The expansion goes on at the same place -/

def Suspended.expand : Suspended σ → PtStmt σ
  | .after => .skip
  | .polling c => .seq .skip (.ite (locally c) .skip (returning .waiting))
  | .awaiting thread =>
      .seq .skip (.seq (.act (locally (assignSpawnRes thread)))
        (.ite (locally spawnActive) returnSpawnRes .skip))
  | .within k t => .seq k.expand t.expand

/-- A thread and its expansion end in the same way; what is left of the thread
is at the line that was saved. -/
def Matches (P : Suspended σ → BitVec 16 → Prop) (o : Option (Leave σ)) (l : Locals σ)
    (res : Option PtState) (f : CallFrame σ) : Prop :=
  f.locals = l ∧ res = o.map Leave.result ∧ ∀ left ∈ o, ∀ k ∈ left.rest, P k f.pt

section Matches

variable {P Q : Suspended σ → BitVec 16 → Prop} {fuel : Nat} {f : CallFrame σ}

abbrev Tracks (P : Suspended σ → BitVec 16 → Prop) (fuel : Nat) (m : Running σ)
    (s : PtStmt σ) (f : CallFrame σ) : Prop :=
  Prog.Coupled (m.run fuel) (s.exec.run fuel) (Matches P) f.locals f

theorem locally_coupled {α : Type} (m : Code (Locals σ) α) (fuel : Nat) (f : CallFrame σ) :
    Prog.Coupled (m.run fuel) ((locally m).run fuel)
      (fun a l b f' => b = a ∧ f'.locals = l ∧ f'.pt = f.pt) f.locals f := by
  apply Prog.Coupled.zoom
  intro a l
  exact ⟨rfl, rfl, rfl⟩

theorem matches_none {f : CallFrame σ} : Matches P none f.locals none f :=
  ⟨rfl, rfl, fun _ h => by cases h⟩

theorem tracks_act (m : Code (Locals σ) Unit) :
    Tracks P fuel (m.bind fun _ => .pure none) (.act (locally m)) f := by
  apply (locally_coupled m fuel f).bind
  rintro _ _ _ f' ⟨-, rfl, -⟩
  exact matches_none

theorem tracks_ite {c : Code (Locals σ) Bool} {m n : Running σ} {s t : PtStmt σ}
    (hm : ∀ f', f'.pt = f.pt → Tracks P fuel m s f')
    (hn : ∀ f', f'.pt = f.pt → Tracks P fuel n t f') :
    Tracks P fuel (c.bind fun b => if b then m else n) (.ite (locally c) s t) f := by
  apply (locally_coupled c fuel f).bind
  rintro _ _ b f' ⟨rfl, rfl, hpt⟩
  cases b with
  | false => exact hn f' hpt
  | true => exact hm f' hpt

theorem tracks_finish {res : PtState} (h : active res = false) :
    Tracks P fuel (finish res h) (returning res) f := by
  refine ⟨rfl, rfl, fun left hleft k hk => ?_⟩
  cases hleft
  cases hk

theorem tracks_suspend {res : PtState} (hactive : active res = true) {k : Suspended σ}
    (h : P k f.pt) : Tracks P fuel (suspend res k hactive) (returning res) f := by
  refine ⟨rfl, rfl, fun left hleft k hk => ?_⟩
  cases hleft
  cases hk
  exact h

theorem tracks_andThen {m n : Running σ} {s t : PtStmt σ} (hm : Tracks P fuel m s f)
    (hn : ∀ f', Tracks P fuel n t f') : Tracks P fuel (m.andThen n) (.seq s t) f := by
  apply hm.bind
  rintro o _ _ f' ⟨rfl, rfl, hP⟩
  cases o with
  | none => exact hn f'
  | some left => exact ⟨rfl, rfl, hP⟩

theorem tracks_before {m : Running σ} {s : PtStmt σ} {t : Thread σ}
    (hm : Tracks Q fuel m s f) (himp : ∀ k pt, Q k pt → P (.within k t) pt) :
    Tracks P fuel (before t m) s f := by
  have hs : s.exec.run fuel = s.exec.run fuel >>= fun o => pure o := (bind_pure _).symm
  unfold Tracks
  rw [hs]
  apply hm.bind
  rintro o _ _ f' ⟨rfl, rfl, hQ⟩
  refine ⟨rfl, ?_, ?_⟩
  · cases o <;> rfl
  · rintro left hleft k hk
    cases o with
    | none => cases hleft
    | some left' =>
        cases hleft
        obtain ⟨k', hk', rfl⟩ := Option.map_eq_some_iff.mp hk
        exact himp k' _ (hQ left' rfl k' hk')

theorem tracks_loop {c : Code (Locals σ) Bool} {m : Running σ} {s : PtStmt σ}
    (hm : ∀ f', Tracks P fuel m s f') :
    Tracks P fuel (.whileLoop c m) (.loop (locally c) s) f := by
  have hturns : ∀ n (f' : CallFrame σ), Prog.Coupled (Code.turns (c.run fuel) (m.run fuel) n)
      (Code.turns ((locally c).run fuel) (s.exec.run fuel) n) (Matches P) f'.locals f' := by
    intro n
    induction n with
    | zero => exact fun _ => .throw _
    | succ n ih =>
        intro f'
        apply (locally_coupled c fuel f').bind
        rintro _ _ b f₁ ⟨rfl, rfl, -⟩
        cases b with
        | false => exact matches_none
        | true =>
            apply (hm f₁).bind
            rintro o _ _ f₂ ⟨rfl, rfl, hP⟩
            cases o with
            | none => exact ih f₂
            | some left => exact ⟨rfl, rfl, hP⟩
  exact hturns fuel f

theorem tracks_saveLine (line : Nat) {m : Running σ} {s : PtStmt σ}
    (h : Tracks P fuel m s { f with pt := BitVec.ofNat 16 line }) :
    Tracks P fuel m (.seq (saveLine line) s) f := h

theorem tracks_skip {m : Running σ} {s t : PtStmt σ} (hs : s.exec = .pure none)
    (h : Tracks P fuel m t f) : Tracks P fuel m (.seq s t) f := by
  unfold Tracks Stmt.exec
  rw [hs]
  exact h

theorem tracks_poll {c : Code (Locals σ) Bool} (h : P (.polling c) f.pt) :
    Tracks P fuel (poll c) (.ite (locally c) .skip (returning .waiting)) f := by
  apply tracks_ite
  · exact fun f' _ => matches_none
  · intro f' hpt
    apply tracks_suspend
    rwa [hpt]

theorem tracks_act_seq {m : Code (Locals σ) Unit} {n : Running σ} {s : PtStmt σ}
    (hn : ∀ f', f'.pt = f.pt → Tracks P fuel n s f') :
    Tracks P fuel (m.bind fun _ => n) (.seq (.act (locally m)) s) f := by
  have hact : Prog.Coupled (m.run fuel >>= pure)
      ((Stmt.act (ρ := PtState) (locally m)).exec.run fuel)
      (fun _ l o f' => o = none ∧ f'.locals = l ∧ f'.pt = f.pt) f.locals f := by
    apply (locally_coupled m fuel f).bind
    rintro _ _ _ f' ⟨-, rfl, hpt⟩
    exact ⟨rfl, rfl, hpt⟩
  rw [bind_pure] at hact
  apply hact.bind
  rintro _ _ _ f' ⟨rfl, rfl, hpt⟩
  exact hn f' hpt

theorem tracks_await {thread : Code (Locals σ) PtState} (h : P (.awaiting thread) f.pt) :
    Tracks P fuel (await thread)
      (.seq (.act (locally (assignSpawnRes thread)))
        (.ite (locally spawnActive) returnSpawnRes .skip)) f := by
  apply tracks_act_seq
  intro f' hpt
  have hread : Prog.Coupled ((Code.lift get).run fuel) ((locally spawnActive).run fuel)
      (fun l l' b f'' => f'' = f' ∧ l = f'.locals ∧ l' = f'.locals ∧
        b = active f'.locals.spawnRes) f'.locals f' :=
    .of_ok rfl rfl ⟨rfl, rfl, rfl, rfl⟩
  apply hread.bind
  rintro _ _ _ _ ⟨rfl, rfl, rfl, rfl⟩
  beta_reduce
  split
  · refine ⟨rfl, rfl, fun left hleft k hk => ?_⟩
    cases hleft
    cases hk
    rwa [hpt]
  · exact matches_none

theorem tracks_saved (line : Nat) {res : PtState} (hactive : active res = true)
    (h : P .after (BitVec.ofNat 16 line)) :
    Tracks P fuel (suspend res .after hactive)
      (.seq (saveLine line) (.seq (returning res) (.label line))) f := by
  refine ⟨rfl, rfl, fun left hleft k hk => ?_⟩
  cases hleft
  cases hk
  exact h

end Matches

def Suspended.Labelled : Suspended σ → Prop
  | .after | .polling _ | .awaiting _ => True
  | .within k t => k.Labelled ∧ t.Labelled

def Thread.Finds (t : Thread σ) (k : Suspended σ) (pt : BitVec 16) : Prop :=
  k.Labelled ∧ t.expand.seek pt.toNat = some k.expand

theorem Thread.Finds.within {t u v : Thread σ} {k : Suspended σ} {pt : BitVec 16}
    (h : t.Finds k pt) (hu : u.Labelled)
    (hseek : ∀ s, t.expand.seek pt.toNat = some s →
      v.expand.seek pt.toNat = some (.seq s u.expand)) : v.Finds (.within k u) pt :=
  ⟨⟨h.1, hu⟩, hseek _ h.2⟩

/-- What matches stays matched when more is known of where it is found. -/
theorem Matches.mono {P Q : Suspended σ → BitVec 16 → Prop} {o : Option (Leave σ)}
    {l : Locals σ} {res : Option PtState} {f : CallFrame σ} (h : Matches P o l res f)
    (himp : ∀ k pt, P k pt → Q k pt) : Matches Q o l res f :=
  ⟨h.1, h.2.1, fun left hleft k hk => himp k _ (h.2.2 left hleft k hk)⟩

theorem Thread.run_tracks (t : Thread σ) (h : t.Labelled) (fuel : Nat) (f : CallFrame σ) :
    Tracks t.Finds fuel t.run t.expand f := by
  induction t generalizing f with
  | skip => exact matches_none
  | act m => exact tracks_act m
  | seq t u iht ihu =>
      apply tracks_andThen
      · apply tracks_before (iht h.left f)
        intro k pt hk
        apply hk.within h.right
        intro s hs
        simp only [expand, Stmt.seek, hs]
      · intro f'
        apply (ihu h.right f').mono
        intro o l res f'' hmatch
        exact hmatch.mono fun k pt hk => ⟨hk.1, Stmt.seek_seq_right h.labels hk.2⟩
  | ite c t u iht ihu =>
      have hseq : (seq t u).Labelled := ⟨h.nodup, h.small⟩
      apply tracks_ite
      · intro f' _
        apply (iht hseq.left f').mono
        intro o l res f'' hmatch
        apply hmatch.mono
        intro k pt hk
        refine ⟨hk.1, ?_⟩
        simp only [expand, Stmt.seek, hk.2]
      · intro f' _
        apply (ihu hseq.right f').mono
        intro o l res f'' hmatch
        exact hmatch.mono fun k pt hk => ⟨hk.1, Stmt.seek_ite_right h.labels hk.2⟩
  | loop c t ih =>
      apply tracks_loop
      intro f'
      apply tracks_before (ih ⟨h.nodup, h.small⟩ f')
      intro k pt hk
      apply hk.within h
      intro s hs
      simp only [expand, Stmt.seek, hs]
      rfl
  | wait line =>
      apply tracks_saved
      simp [Finds, expand, ptWait, Stmt.seek, saveLine, returning, Suspended.Labelled,
        Suspended.expand, h.toNat_line (List.mem_singleton_self line)]
  | yield line =>
      apply tracks_saved
      simp [Finds, expand, ptYield, Stmt.seek, saveLine, returning, Suspended.Labelled,
        Suspended.expand, h.toNat_line (List.mem_singleton_self line)]
  | waitUntil line c =>
      apply tracks_saveLine
      apply tracks_skip rfl
      apply tracks_poll
      simp [Finds, expand, ptWaitUntil, Stmt.seek, saveLine, Suspended.Labelled,
        Suspended.expand, h.toNat_line (List.mem_singleton_self line)]
  | exit => exact tracks_finish rfl
  | fail => exact tracks_finish rfl
  | spawn line init thread =>
      apply tracks_act_seq
      intro f' _
      apply tracks_saveLine
      apply tracks_skip rfl
      apply tracks_await
      simp [Finds, expand, ptSpawn, Stmt.seek, saveLine, Suspended.Labelled,
        Suspended.expand, h.toNat_line (List.mem_singleton_self line)]

/-- Where a suspended thread may be found when it is left again. -/
def Suspended.Finds (k : Suspended σ) (pt : BitVec 16) (k' : Suspended σ) (pt' : BitVec 16) :
    Prop :=
  k'.Labelled ∧ ((k' = k ∧ pt' = pt) ∨
    ∃ u, Stmt.Tail k.expand u ∧ u.seek pt'.toNat = some k'.expand)

theorem Suspended.resume_tracks (k : Suspended σ) (hk : k.Labelled) (fuel : Nat) (f : CallFrame σ) :
    Tracks (k.Finds f.pt) fuel k.resume k.expand f := by
  induction k with
  | after => exact matches_none
  | polling c =>
      apply tracks_skip rfl
      exact tracks_poll ⟨hk, .inl ⟨rfl, rfl⟩⟩
  | awaiting thread =>
      apply tracks_skip rfl
      exact tracks_await ⟨hk, .inl ⟨rfl, rfl⟩⟩
  | within k t ih =>
      apply tracks_andThen
      · apply tracks_before (ih hk.1)
        rintro k' pt ⟨hk', hfound⟩
        refine ⟨⟨hk', hk.2⟩, ?_⟩
        rcases hfound with ⟨rfl, rfl⟩ | ⟨u, htail, hu⟩
        · exact .inl ⟨rfl, rfl⟩
        · refine .inr ⟨.seq u t.expand, .inner _ htail, ?_⟩
          simp only [Stmt.seek, hu, expand]
      · intro f'
        apply (t.run_tracks hk.2 fuel f').mono
        intro o l res f'' hmatch
        exact hmatch.mono fun k' pt hfound =>
          ⟨hfound.1, .inr ⟨t.expand, .rest _ _, hfound.2⟩⟩

def Thread.LeadsTo (t : Thread σ) (k : Suspended σ) (pt : BitVec 16) : Prop :=
  k.Labelled ∧ (Stmt.seq (.label 0) t.expand).seek pt.toNat = some k.expand

theorem Thread.Compiles.labels_switch {t : Thread σ} (h : t.Compiles) :
    (Stmt.seq (.label 0) t.expand).labels.Nodup := by
  simp only [Stmt.labels, List.singleton_append, List.nodup_cons, expand_labels]
  exact ⟨h.positive, h.nodup⟩

theorem resumeCall_run (k : Suspended σ) (s : σ) (fuel : Nat) :
    resumeCall.run fuel (k, s) = match k.resume.run fuel ⟨.yielded, s⟩ with
      | .ok (none, l) => .ok (.exited, k, l.vars)
      | .ok (some left, l) => .ok (left.result, left.rest.getD k, l.vars)
      | .error e => .error e := by
  unfold resumeCall
  simp only [Code.run_bind, Code.run_get, Code.run_zoom]
  cases k.resume.run fuel ⟨.yielded, s⟩ with
  | error e => rfl
  | ok r =>
      obtain ⟨o, l⟩ := r
      cases o <;> rfl

theorem Thread.LeadsTo.call {t : Thread σ} (h : t.Compiles) :
    (coroutine t).Alike (ptThread t) t.LeadsTo := by
  intro k pt s fuel hk
  have hresume := k.resume_tracks hk.1 fuel ⟨pt, ⟨.yielded, s⟩⟩
  have hswitch : Stmt.switch pt.toNat (.seq (.label 0) t.expand) = k.expand.exec := by
    unfold Stmt.switch
    rw [hk.2]
  have hleft := resumeCall_run k s fuel
  have hright : (ptThread t).call.run fuel (pt, s) =
      (k.expand.exec.run fuel ⟨pt, ⟨.yielded, s⟩⟩).map
        fun r => (r.1.getD .exited, r.2.pt, r.2.locals.vars) := by
    change (Code.zoom _ _ (ptFunction t.expand)).run fuel (pt, s) = _
    rw [Code.run_zoom, ptFunction_run, hswitch]
    cases k.expand.exec.run fuel ⟨pt, ⟨.yielded, s⟩⟩ <;> rfl
  cases hrun : k.resume.run fuel ⟨.yielded, s⟩ with
  | error e =>
      rw [hrun] at hleft
      rw [hresume.error hrun] at hright
      exact .of_error hleft hright
  | ok r =>
      obtain ⟨o, l⟩ := r
      obtain ⟨res, f, hexec, rfl, rfl, hP⟩ := hresume.ok hrun
      rw [hrun] at hleft
      rw [hexec] at hright
      cases o with
      | none =>
          refine .of_ok hleft hright ⟨rfl, rfl, fun hactive => ?_⟩
          cases hactive
      | some left =>
          refine .of_ok hleft hright ⟨rfl, rfl, fun hactive => ?_⟩
          have hactive : active left.result = true := by simpa [coroutine] using hactive
          cases hrest : left.rest with
          | none => simp [left.finished.mp hrest] at hactive
          | some k' =>
              obtain ⟨hk', hfound⟩ := hP left rfl k' hrest
              refine ⟨hk', ?_⟩
              rcases hfound with ⟨rfl, hpt⟩ | ⟨u, htail, hu⟩
              · rw [hpt]
                exact hk.2
              · exact Stmt.seek_tail h.labels_switch hk.2 htail hu

/-- A protothread does what its body says: over any number of calls, whatever
happens between them, it returns the same results and has the same effects as
the coroutine. -/
theorem ptThread_history (t : Thread σ) (h : t.Compiles) (s : σ)
    (events : List (CallEvent σ PtState)) :
    (ptThread t).History s events ↔ (coroutine t).History s events := by
  have hstart : t.LeadsTo (coroutine t).start (ptThread t).start :=
    ⟨⟨trivial, h.toLabelled⟩, rfl⟩
  exact ((Thread.LeadsTo.call h).history_iff rfl hstart).symm

/-- `exit_thread` of the tests. -/
def exitThread : Thread σ :=
  .seq (.loop (.pure true) (.seq (.yield 56) .exit)) (.waitUntil 60 (.pure false))

theorem exitThread_compiles : (exitThread : Thread σ).Compiles :=
  ⟨⟨by simp [exitThread, Thread.lines], by simp [exitThread, Thread.lines]⟩,
    by simp [exitThread, Thread.lines]⟩

theorem exitThread_history : (coroutine (exitThread : Thread Nat)).History 0
    [.returned .yielded 0, .changed 1, .returned .exited 1] := by
  have hcall {s s' : Suspended Nat × Nat} {res : PtState}
      (h : (coroutine (exitThread : Thread Nat)).call.run 3 s = .ok (res, s')) :
      (coroutine exitThread).call.Returns s (res, s') :=
    (coroutine exitThread).call.mono.returns h
  have hyield : (coroutine (exitThread : Thread Nat)).call.Returns
      (.within .after exitThread, 0) (.yielded, _, 0) := hcall rfl
  exact ⟨_, .cons (.returned hyield) (.cons (.changed 1) (.single (.returned (hcall rfl))))⟩

theorem ptThread_history_resumed :
    (ptThread (exitThread : Thread Nat)).History 0
      [.returned .yielded 0, .changed 1, .returned .exited 1] :=
  (ptThread_history exitThread exitThread_compiles 0 _).mpr exitThread_history

end Librfn.Protothread
