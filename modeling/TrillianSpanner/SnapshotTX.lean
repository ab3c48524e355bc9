import TrillianSpanner.SubtreeData

/-! `snapshotTX`, the transaction of the log storage's snapshots. `Commit` and `Rollback` return
`t.Close()`, and `Close` runs whole under `t.mu`, so the calls on one transaction take effect one
after another, in the order they take the lock. -/

namespace TrillianSpanner

structure SnapshotTX where
  stx : Option Scope
  roCloses : Nat
  deriving DecidableEq, Repr

def SnapshotTX.close (t : SnapshotTX) : SnapshotTX × Option Error :=
  match t.stx with
  | none => (t, some .transactionClosed)
  | some sc => (⟨none, if sc = .readOnly then t.roCloses + 1 else t.roCloses⟩, none)

def SnapshotTX.commit (t : SnapshotTX) : SnapshotTX × Option Error := t.close

def SnapshotTX.rollback (t : SnapshotTX) : SnapshotTX × Option Error := t.close

inductive SnapshotCall
  | commit
  | rollback
  | close
  deriving DecidableEq, Repr

def SnapshotCall.apply : SnapshotCall → SnapshotTX → SnapshotTX × Option Error
  | .commit, t => t.commit
  | .rollback, t => t.rollback
  | .close, t => t.close

def SnapshotTX.run (t : SnapshotTX) : List SnapshotCall → SnapshotTX × List (Option Error)
  | [] => (t, [])
  | c :: cs =>
    let (t', r) := c.apply t
    let (t'', rs) := t'.run cs
    (t'', r :: rs)

theorem SnapshotTX.run_closed (k : Nat) :
    ∀ cs : List SnapshotCall,
      (SnapshotTX.mk none k).run cs = (⟨none, k⟩, cs.map fun _ => some .transactionClosed)
  | [] => rfl
  | c :: cs => by cases c <;> simp [run, SnapshotCall.apply, commit, rollback, close, run_closed k cs]

end TrillianSpanner
