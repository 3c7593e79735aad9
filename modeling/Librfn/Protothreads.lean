import Librfn.Logic.Switch
import Librfn.Console

/-!
# Protothreads

`protothreads.h`.  The macros turn the body of a function into a `switch` over
its `pt_t`, with `case __LINE__` wherever the function may have returned.  The
line of a macro is given to it as a number.
-/

namespace Librfn.Protothread

open Librfn.Logic

variable {σ : Type}

/-- `pt_spawn_res`, which is new in every call, and what else the function may
use. -/
structure Locals (σ : Type) where
  spawnRes : PtState
  vars : σ

structure CallFrame (σ : Type) where
  pt : BitVec 16
  locals : Locals σ

/-- What is left of a protothread between two calls. -/
structure Instance (σ : Type) where
  pt : BitVec 16
  vars : σ
  deriving DecidableEq, Repr

def active : PtState → Bool
  | .yielded | .waiting => true
  | .exited | .failed => false

abbrev PtStmt (σ : Type) := Stmt (CallFrame σ) PtState

def locally {α : Type} (m : Code (Locals σ) α) : Code (CallFrame σ) α :=
  .zoom CallFrame.locals (fun locals f => { f with locals }) m

def onVars {α : Type} (m : Prog σ α) : Code (Locals σ) α :=
  .lift (Prog.zoom Locals.vars (fun vars l => { l with vars }) m)

def saveLine (line : Nat) : PtStmt σ :=
  .act (.lift (modify fun f => { f with pt := BitVec.ofNat 16 line }))

def returning (res : PtState) : PtStmt σ := .ret (.pure res)

/-! ## The macros -/

def initPt : Code (Instance σ) Unit := .lift (modify fun a => { a with pt := 0 })

def ptWait (line : Nat) : PtStmt σ :=
  .seq (saveLine line) (.seq (returning .waiting) (.label line))

def ptWaitUntil (line : Nat) (c : Code (Locals σ) Bool) : PtStmt σ :=
  .seq (saveLine line) (.seq (.label line) (.ite (locally c) .skip (returning .waiting)))

def ptYield (line : Nat) : PtStmt σ :=
  .seq (saveLine line) (.seq (returning .yielded) (.label line))

def ptExit : PtStmt σ := returning .exited

def ptFail : PtStmt σ := returning .failed

def assignSpawnRes (thread : Code (Locals σ) PtState) : Code (Locals σ) Unit :=
  thread.bind fun spawnRes => .lift (modify fun l => { l with spawnRes })

def spawnActive : Code (Locals σ) Bool := .lift do return active (← get).spawnRes

def returnSpawnRes : PtStmt σ :=
  .ret (locally (.lift do return (← get).spawnRes))

/-- `init` is what `PT_INIT(child)` does. -/
def ptSpawn (line : Nat) (init : Code (Locals σ) Unit) (thread : Code (Locals σ) PtState) :
    PtStmt σ :=
  .seq (.act (locally init))
    (.seq (saveLine line)
      (.seq (.label line)
        (.seq (.act (locally (assignSpawnRes thread)))
          (.ite (locally spawnActive) returnSpawnRes .skip))))

def ptChildOk : Code (Locals σ) Bool := .lift do return (← get).spawnRes ≠ .failed

/-- A function whose body stands between `PT_BEGIN(pt)` and `PT_END()`. -/
def ptFunction (body : PtStmt σ) : Code (Instance σ) PtState :=
  .zoom (fun a => ⟨a.pt, ⟨.yielded, a.vars⟩⟩) (fun f _ => ⟨f.pt, f.locals.vars⟩)
    ((Code.lift get).bind fun f =>
      (Stmt.switch f.pt.toNat (.seq (.label 0) body)).bind fun
        | some res => .pure res
        | none => .pure .exited)

theorem ptFunction_run (body : PtStmt σ) (pt : BitVec 16) (s : σ) (fuel : Nat) :
    (ptFunction body).run fuel ⟨pt, s⟩ =
      match (Stmt.switch pt.toNat (.seq (.label 0) body)).run fuel ⟨pt, ⟨.yielded, s⟩⟩ with
      | .ok (res, f) => .ok (res.getD .exited, ⟨f.pt, f.locals.vars⟩)
      | .error e => .error e := by
  unfold ptFunction
  simp only [Code.run_zoom, Code.run_bind, Code.run_get]
  cases (Stmt.switch pt.toNat (.seq (.label 0) body)).run fuel ⟨pt, ⟨.yielded, s⟩⟩ with
  | error e => rfl
  | ok r =>
      obtain ⟨o, f⟩ := r
      cases o <;> rfl

theorem wp_ptFunction {body k : PtStmt σ} {pt : BitVec 16} {s : σ} {fuel : Nat}
    (hseek : (Stmt.seq (.label 0) body).seek pt.toNat = some k)
    (Q : PtState → Instance σ → Prop) :
    Prog.wp ((ptFunction body).run fuel) Q ⟨pt, s⟩ ↔
      Prog.wp (k.exec.run fuel) (fun res f => Q (res.getD .exited) ⟨f.pt, f.locals.vars⟩)
        ⟨pt, ⟨.yielded, s⟩⟩ := by
  have hswitch : Stmt.switch pt.toNat (.seq (.label 0) body) = k.exec := by
    unfold Stmt.switch
    rw [hseek]
  unfold Prog.wp
  rw [ptFunction_run, hswitch]
  cases k.exec.run fuel ⟨pt, ⟨.yielded, s⟩⟩ <;> rfl

theorem wp_onVars {α : Type} (m : Prog σ α) (Q : α → CallFrame σ → Prop) (f : CallFrame σ) (n : Nat) :
    Prog.wp ((locally (onVars m)).run n) Q f ↔
      Prog.wp m (fun a vars => Q a { f with locals := { f.locals with vars } })
        f.locals.vars := by
  simp [locally, onVars, Code.zoom, Code.lift]

theorem wp_ptWaitUntil (line : Nat) (c : Code (Locals σ) Bool)
    (Q : Option PtState → CallFrame σ → Prop) (f : CallFrame σ) (n : Nat) :
    Prog.wp ((ptWaitUntil line c).exec.run n) Q f ↔
      Prog.wp ((locally c).run n) (fun b f' => Q (if b then none else some .waiting) f')
        { f with pt := BitVec.ofNat 16 line } := by
  simp only [ptWaitUntil, saveLine, returning, Stmt.exec, Code.wp_andThen, Code.wp_bind,
    Code.wp_lift, Prog.wp_modify, Code.wp_pure]
  refine Eq.to_iff (congrArg (fun R => Prog.wp ((locally c).run n) R _) ?_)
  funext b f'
  cases b <;> rfl

def callLoop (thread : Code (Instance σ) PtState) : Code (Instance σ) (Option PtState) :=
  .whileLoop (thread.bind fun res => .pure (active res)) (.pure none)

def ptCall (thread : Code (Instance σ) PtState) : Code (Instance σ) Unit :=
  initPt.bind fun _ => (callLoop thread).bind fun _ => .pure ()

/-! ## What a programmer writes -/

/-- The body of a protothread before the preprocessor has seen it. -/
inductive Thread (σ : Type) where
  | skip
  | act (m : Code (Locals σ) Unit)
  | seq (t u : Thread σ)
  | ite (c : Code (Locals σ) Bool) (t u : Thread σ)
  | loop (c : Code (Locals σ) Bool) (t : Thread σ)
  | wait (line : Nat)
  | waitUntil (line : Nat) (c : Code (Locals σ) Bool)
  | yield (line : Nat)
  | exit
  | fail
  | spawn (line : Nat) (init : Code (Locals σ) Unit) (thread : Code (Locals σ) PtState)

namespace Thread

def expand : Thread σ → PtStmt σ
  | skip => .skip
  | act m => .act (locally m)
  | seq t u => .seq t.expand u.expand
  | ite c t u => .ite (locally c) t.expand u.expand
  | loop c t => .loop (locally c) t.expand
  | wait line => ptWait line
  | waitUntil line c => ptWaitUntil line c
  | yield line => ptYield line
  | exit => ptExit
  | fail => ptFail
  | spawn line init thread => ptSpawn line init thread

/-- The lines that become `case` labels. -/
def lines : Thread σ → List Nat
  | skip | act _ | exit | fail => []
  | seq t u | ite _ t u => t.lines ++ u.lines
  | loop _ t => t.lines
  | wait line | waitUntil line _ | yield line | spawn line _ _ => [line]

theorem expand_labels (t : Thread σ) : t.expand.labels = t.lines := by
  induction t with
  | skip => rfl
  | act m => rfl
  | seq t u iht ihu => simp [expand, lines, Stmt.labels, iht, ihu]
  | ite c t u iht ihu => simp [expand, lines, Stmt.labels, iht, ihu]
  | loop c t ih => simp [expand, lines, Stmt.labels, ih]
  | wait line => rfl
  | waitUntil line c => rfl
  | yield line => rfl
  | exit => rfl
  | fail => rfl
  | spawn line init thread => rfl

/-- The lines tell the labels apart, also as values of a `pt_t`. -/
structure Labelled (t : Thread σ) : Prop where
  nodup : t.lines.Nodup
  small : ∀ line ∈ t.lines, line < 2 ^ 16

/-- `case 0` is that of `PT_BEGIN`. -/
structure Compiles (t : Thread σ) : Prop extends t.Labelled where
  positive : 0 ∉ t.lines

namespace Labelled

variable {c : Code (Locals σ) Bool} {t u : Thread σ}

theorem left (h : (seq t u).Labelled) : t.Labelled :=
  ⟨(List.nodup_append'.mp h.nodup).1, fun l hl => h.small l (List.mem_append_left _ hl)⟩

theorem right (h : (seq t u).Labelled) : u.Labelled :=
  ⟨(List.nodup_append'.mp h.nodup).2.1, fun l hl => h.small l (List.mem_append_right _ hl)⟩

theorem labels (h : t.Labelled) : t.expand.labels.Nodup := by
  rw [expand_labels]
  exact h.nodup

theorem toNat_line (h : t.Labelled) {line : Nat} (hmem : line ∈ t.lines) :
    (BitVec.ofNat 16 line).toNat = line := by
  rw [BitVec.toNat_ofNat]
  exact Nat.mod_eq_of_lt (h.small line hmem)

end Labelled

end Thread

end Librfn.Protothread
