import TrillianSpanner.TreeTX.Head
import Mathlib.Algebra.BigOperators.Group.List

/-! Progress of a `treeTX`: no interleaving of its calls deadlocks. A call that has not returned
can take a step, or a fetch goroutine of its miss handler can, or it waits for `t.mu` or for the
cache's mutex, which a call holds that can move. A holder of the write lock is in the body or the
deferred unlock of a `Commit` or `Rollback`, which never wait; a holder of the cache's mutex is a
miss handler, which waits on its channels only while a fetch has not sent, and a fetch never
blocks on its send, or a `SetMerkleNodes` loading a subtree, which never waits; a holder of the
read lock is one of these or a `SetMerkleNodes` waiting for the cache's mutex. Nor does any run go
on for ever: every step takes one from the steps its call has left, a number read off the call
when it starts. -/

namespace TrillianSpanner

def Thread.locking : Thread → Bool
  | .commit .lock | .rollback .lock | .close (.rollback .lock) | .close .isOpen | .isOpen none
  | .getMerkleNodes _ _ .rlock _ | .setMerkleNodes _ .rlock => true
  | _ => false

def Thread.cacheLocking : Thread → Bool
  | .setMerkleNodes _ (.node _ (_ :: _)) => true
  | _ => false

theorem Thread.holdsRead_of_holdsCache {th : Thread} (h : th.holdsCache = true) : th.holdsRead = true := by
  unfold Thread.holdsCache at h
  split at h <;> first | rfl | cases h

theorem exists_getElem?_of_any {p : Thread → Bool} {l : List Thread} (h : l.any p = true) :
    ∃ (t : Nat) (th : Thread), l[t]? = some th ∧ p th = true := by
  obtain ⟨th, hmem, hp⟩ := List.any_eq_true.1 h
  obtain ⟨t, ht⟩ := List.mem_iff_getElem?.1 hmem
  exact ⟨t, th, ht, hp⟩

def World.CanMove (E : Env) (w : World) (t : Nat) : Prop :=
  (∃ b w', step E w (.step t b) = some w') ∨ ∃ j w', step E w (.fetch t j) = some w'

def Fanout.ErrcKept (f : Fanout) : Prop :=
  f.result = none → f.errc.length = (f.fetches.filterMap FetchPc.sentErr).length

def Thread.fanout : Thread → Option Fanout
  | .getMerkleNodes _ _ _ fan => fan
  | _ => none

def Thread.ErrcKept (th : Thread) : Prop := ∀ f, th.fanout = some f → f.ErrcKept

theorem length_le_filterMap_add {α β γ : Type} {f : α → Option β} {g : α → Option γ} :
    ∀ {l : List α}, (∀ x ∈ l, (f x).isSome ∨ (g x).isSome) →
      l.length ≤ (l.filterMap f).length + (l.filterMap g).length
  | [], _ => le_rfl
  | x :: l, h => by
    have ih := length_le_filterMap_add fun y hy => h y (List.mem_cons_of_mem x hy)
    have hx := h x (List.mem_cons_self x l)
    cases hf : f x <;> cases hg : g x <;>
      simp only [hf, hg, Option.isSome_none, Option.isSome_some, Bool.false_eq_true, or_self] at hx <;>
      simp only [List.filterMap_cons, hf, hg, List.length_cons] <;> omega

variable {E : Env}

section Errc

variable {h w k b : Bool} {t j : Nat} {th th' : Thread} {tx tx' : TX}

theorem ThreadStep.errcKept (hs : ThreadStep E h w k t b th tx tx' (.moves th')) (hk : th.ErrcKept) :
    th'.ErrcKept := by
  cases hs with
  | getClosed | getCached => exact hk
  | recvSubtree => rintro _ ⟨⟩; have := hk _ rfl; exact this
  | getMissing =>
    rintro _ ⟨⟩ _
    simp [Fanout.spawn, List.filterMap_map, FetchPc.sentErr, Function.comp_def]
  | handlerReturn | recvErr => rintro _ ⟨⟩ h; cases h
  | _ => rintro _ ⟨⟩

theorem FetchStep.errcKept (hs : FetchStep E t j th tx tx' (.moves th')) (hk : th.ErrcKept) :
    th'.ErrcKept := by
  cases hs with
  | get hj => rintro _ ⟨⟩ hres; simpa [(FanInv.sent_set _ hj rfl rfl).2.length_eq, FetchPc.sentErr] using hk _ rfl hres
  | sendErr hj => rintro _ ⟨⟩ hres; simpa [(FanInv.sent_set _ hj rfl rfl).2.length_eq, FetchPc.sentErr] using hk _ rfl hres
  | send hj => rintro _ ⟨⟩ hres; simpa [(FanInv.sent_set _ hj rfl rfl).2.length_eq, FetchPc.sentErr] using hk _ rfl hres

theorem Reachable.errcKept {w : World} (hw : Reachable E w) :
    ∀ (t : Nat) (th : Thread), w.threads[t]? = some th → th.ErrcKept := by
  induction hw with
  | init => intro t th h; simp [World.init] at h
  | step a hw hs ih =>
    rcases step_cases hs with ⟨c, rfl⟩ | ⟨t, b, th, tx', n, hth, hts, rfl⟩ |
      ⟨t, j, th, tx', n, hth, hfs, rfl⟩
    · intro i thi hi
      rcases getElem?_append_singleton hi with hi | ⟨rfl, rfl⟩
      · exact ih i thi hi
      · cases c <;> rintro _ ⟨⟩
    all_goals
      cases n with
      | panics p => exact ih
      | moves th' =>
        intro i thi hi
        rcases getElem?_set_of hi with ⟨rfl, rfl⟩ | ⟨-, hi⟩
        · first
            | exact hts.errcKept (ih _ _ hth)
            | exact hfs.errcKept (ih _ _ hth)
        · exact ih i thi hi

end Errc

theorem FanInv.unsent {rev : Int} {f : Fanout} (hf : FanInv E rev f) (hk : f.ErrcKept)
    (hres : f.result = none) (hl : f.left ≠ 0) (hc : f.c = []) (he : f.errc = []) :
    ∃ (j : Nat) (x : FetchPc), f.fetches[j]? = some x ∧ x.sentOk = none ∧ x.sentErr = none := by
  by_contra hne
  have hall : ∀ x ∈ f.fetches, x.sentOk.isSome ∨ x.sentErr.isSome := fun x hx => by
    obtain ⟨j, hj⟩ := List.mem_iff_getElem?.1 hx
    by_contra hx'
    simp only [not_or, Option.not_isSome_iff_eq_none] at hx'
    exact hne ⟨j, x, hj, hx'⟩
  have := length_le_filterMap_add hall
  have := hf.count
  have := hf.length
  have := hk hres
  simp only [hc, he, List.length_nil] at *
  omega

theorem stepLocked_isSome {tx : TX} {held : Bool} {t : Nat} {c : Bool} {pc : LockedPc}
    (h : pc = .body ∨ ∃ r, pc = .unlock r) : (stepLocked E tx held t c pc).isSome := by
  rcases h with rfl | ⟨r, rfl⟩
  · simp only [stepLocked]
    split
    · rfl
    · split
      · split <;> rfl
      · rfl
  · rfl

theorem stepThread_isSome {tx : TX} {held writeHeld cacheHeld : Bool} {t : Nat} {b : Bool} {th : Thread}
    (hr : th.returned = false) (hl : th.locking = false) (hk : cacheHeld = false ∨ th.cacheLocking = false)
    (hh : ∀ rev ids want fan, th ≠ .getMerkleNodes rev ids (.handler want) fan)
    (hcl : ∀ r, th ≠ .close (.rollback (.done r))) :
    (stepThread E tx held writeHeld cacheHeld t b th).isSome := by
  cases th with
  | commit pc | rollback pc =>
    cases pc with
    | lock => cases hl
    | done => cases hr
    | body => simpa only [stepThread, Option.isSome_map'] using stepLocked_isSome (.inl rfl)
    | unlock r => simpa only [stepThread, Option.isSome_map'] using stepLocked_isSome (.inr ⟨r, rfl⟩)
  | close pc =>
    rcases pc with _ | pc | _
    · cases hl
    · cases pc with
      | lock => cases hl
      | done r => exact absurd rfl (hcl r)
      | body => simpa only [stepThread, Option.isSome_map'] using stepLocked_isSome (.inl rfl)
      | unlock r => simpa only [stepThread, Option.isSome_map'] using stepLocked_isSome (.inr ⟨r, rfl⟩)
    · cases hr
  | getMerkleNodes rev ids pc fan =>
    cases pc with
    | rlock => simp [Thread.locking] at hl
    | handler want => exact absurd rfl (hh rev ids want fan)
    | done => simp [Thread.returned] at hr
  | setMerkleNodes nodes pc =>
    cases pc with
    | rlock => simp [Thread.locking] at hl
    | done => simp [Thread.returned] at hr
    | writeRev => simp only [stepThread, stepSet]; split <;> (try split) <;> rfl
    | node wr rest =>
      rcases rest with _ | ⟨n, rest⟩
      · rfl
      · obtain rfl : cacheHeld = false := hk.resolve_right (by simp [Thread.cacheLocking])
        simp only [stepThread, stepSet, Bool.false_eq_true, ↓reduceIte]
        split <;> rfl
    | load wr n rest => simp only [stepThread, stepSet]; split <;> rfl
  | isOpen r =>
    cases r
    · cases hl
    · cases hr
  | readRevision r =>
    cases r
    · simp only [stepThread, stepReadRevision]; split <;> (try split) <;> rfl
    · simp [Thread.returned] at hr
  | writeRevision r =>
    cases r
    · simp only [stepThread, stepWriteRevision]; split <;> (try split) <;> rfl
    · simp [Thread.returned] at hr

theorem ThreadStep.after_ne_close_done {h w k b : Bool} {t : Nat} {th th' : Thread} {tx tx' : TX}
    (hs : ThreadStep E h w k t b th tx tx' (.moves th')) (r : Option Error) :
    th' ≠ .close (.rollback (.done r)) := by
  cases hs with
  | closeRollback _ hne => exact fun h => hne r (by cases h; rfl)
  | _ => nofun

theorem Reachable.close_rollback_ne_done {w : World} (hw : Reachable E w) :
    ∀ (t : Nat) (r : Option Error), w.threads[t]? ≠ some (.close (.rollback (.done r))) := by
  induction hw with
  | init => intro t r h; simp [World.init] at h
  | step a hw hs ih =>
    rcases step_cases hs with ⟨c, rfl⟩ | ⟨t, b, th, tx', n, hth, hts, rfl⟩ |
      ⟨t, j, th, tx', n, hth, hfs, rfl⟩
    · intro i r hi
      rcases getElem?_append_singleton hi with hi | ⟨-, h⟩
      · exact ih i r hi
      · cases c <;> cases h
    all_goals
      cases n with
      | panics p => exact ih
      | moves th' =>
        intro i r hi
        rcases getElem?_set_of hi with ⟨rfl, h⟩ | ⟨-, hi⟩
        · first
            | exact hts.after_ne_close_done r h.symm
            | cases hfs <;> cases h
        · exact ih i r hi

theorem FanInv.stepFetch_isSome {rev : Int} {f : Fanout} (hf : FanInv E rev f) {j : Nat} {x : FetchPc}
    (hj : f.fetches[j]? = some x) (hok : x.sentOk = none) (herr : x.sentErr = none) (tx : TX)
    (t : Nat) (rev' : Int) (ids : List NodeID) (pc : GetPc) :
    (stepFetch E tx t j (.getMerkleNodes rev' ids pc (some f))).isSome := by
  have hjl : j < f.ids.length := hf.length ▸ (List.getElem?_eq_some_iff.1 hj).1
  cases x with
  | start =>
    simp only [stepFetch, hj, List.getElem?_eq_getElem hjl]
    split <;> rfl
  | send st err =>
    obtain ⟨h1, h2⟩ := hf.send_room hj
    cases err with
    | none => simp [stepFetch, hj, h1 rfl]
    | some e => simp [stepFetch, hj, h2 rfl]
  | done st err => cases err <;> simp [FetchPc.sentOk, FetchPc.sentErr] at hok herr

theorem Thread.holds_cases {th : Thread} (h : (th.holdsWrite || th.holdsRead) = true) :
    (∃ rev ids want fan, th = .getMerkleNodes rev ids (.handler want) fan) ∨
      th.returned = false ∧ th.locking = false ∧
      (∀ rev ids want fan, th ≠ .getMerkleNodes rev ids (.handler want) fan) ∧
      ∀ r, th ≠ .close (.rollback (.done r)) := by
  rcases th with pc | pc | (_ | pc | _) | _ | ⟨rev, ids, _ | want | _, fan⟩ | ⟨nodes, pc⟩ | _ | _ <;>
    (try cases pc) <;>
    first
    | (cases h; done)
    | exact .inl ⟨_, _, _, _, rfl⟩
    | exact .inr ⟨rfl, rfl, fun _ _ _ _ => nofun, fun _ => by simp⟩

section Enabled

variable {w : World} (hc : w.crashed = none) {t : Nat}
include hc

theorem step_step_of_isSome {th : Thread} (hth : w.threads[t]? = some th) {b : Bool}
    (h : (stepThread E w.tx w.held w.writeHeld w.cacheHeld t b th).isSome) : ∃ w', step E w (.step t b) = some w' := by
  obtain ⟨r, hr⟩ := Option.isSome_iff_exists.1 h
  exact ⟨w.apply t r, by simp [step, hc, hth, hr]⟩

theorem step_fetch_of_isSome {th : Thread} (hth : w.threads[t]? = some th) {j : Nat}
    (h : (stepFetch E w.tx t j th).isSome) : ∃ w', step E w (.fetch t j) = some w' := by
  obtain ⟨r, hr⟩ := Option.isSome_iff_exists.1 h
  exact ⟨w.apply t r, by simp [step, hc, hth, hr]⟩

theorem locking_step_or_held {th : Thread} (hth : w.threads[t]? = some th) (hl : th.locking = true) :
    (∃ w', step E w (.step t false) = some w') ∨ w.held = true := by
  cases hheld : w.held
  · left
    have hwh : w.writeHeld = false := List.any_eq_false.2 fun x hx => by
      have := List.any_eq_false.1 hheld x hx
      simp_all
    have hkh : w.cacheHeld = false := List.any_eq_false.2 fun x hx hk => by
      have := List.any_eq_false.1 hheld x hx
      simp [Thread.holdsRead_of_holdsCache hk] at this
    apply step_step_of_isSome hc hth
    rcases th with pc | pc | (_ | pc | _) | (_ | _) | ⟨rev, ids, _ | want | _, fan⟩ |
      ⟨nodes, _ | _ | _ | _ | _⟩ | _ | _ <;> (try cases pc) <;>
      simp_all [Thread.locking, stepThread, stepLocked, stepSet] <;> split <;> (try split) <;> simp
  · exact .inr rfl

theorem handler_canMove (hw : Reachable E w) {rev : Int} {ids : List NodeID}
    {want : List (List UInt8 × NodeID)} {fan : Option Fanout}
    (hth : w.threads[t]? = some (.getMerkleNodes rev ids (.handler want) fan)) : w.CanMove E t := by
  obtain ⟨f, rfl, hf, hres⟩ := hw.getInv t _ hth
  by_cases hl : f.left = 0
  · exact .inl ⟨false, step_step_of_isSome hc hth (by simp [stepThread, stepHandler, hl])⟩
  · rcases hcf : f.c with _ | ⟨st, c⟩ <;> rcases hef : f.errc with _ | ⟨e, errc⟩
    · obtain ⟨j, x, hj, hok, herr⟩ := hf.unsent (hw.errcKept t _ hth f rfl) hres hl hcf hef
      exact .inr ⟨j, step_fetch_of_isSome hc hth (hf.stepFetch_isSome hj hok herr _ _ _ _ _)⟩
    all_goals exact .inl ⟨false, step_step_of_isSome hc hth (by simp [stepThread, stepHandler, hl, hcf, hef])⟩

theorem cacheHolder_canMove (hw : Reachable E w) {th : Thread} (hth : w.threads[t]? = some th)
    (hk : th.holdsCache = true) : w.CanMove E t := by
  unfold Thread.holdsCache at hk
  split at hk
  · exact handler_canMove hc hw hth
  · exact .inl ⟨false, step_step_of_isSome hc hth (stepThread_isSome rfl rfl (.inr rfl) nofun nofun)⟩
  · cases hk

theorem holder_canMove (hw : Reachable E w) {th : Thread} (hth : w.threads[t]? = some th)
    (hh : (th.holdsWrite || th.holdsRead) = true) (hk : w.cacheHeld = false ∨ th.cacheLocking = false) :
    w.CanMove E t := by
  rcases Thread.holds_cases hh with ⟨rev, ids, want, fan, rfl⟩ | ⟨hr, hl, hnh, hcl⟩
  · exact handler_canMove hc hw hth
  · exact .inl ⟨false, step_step_of_isSome hc hth (stepThread_isSome hr hl hk hnh hcl)⟩

theorem held_canMove (hw : Reachable E w) (hheld : w.held = true) :
    ∃ t' th', w.threads[t']? = some th' ∧ (th'.holdsWrite || th'.holdsRead) = true ∧ w.CanMove E t' := by
  obtain ⟨t, th, hth, hh⟩ := exists_getElem?_of_any hheld
  cases hk : w.cacheHeld
  · exact ⟨t, th, hth, hh, holder_canMove hc hw hth hh (.inl hk)⟩
  · obtain ⟨t', th', ht', hk'⟩ := exists_getElem?_of_any hk
    exact ⟨t', th', ht', by simp [Thread.holdsRead_of_holdsCache hk'], cacheHolder_canMove hc hw ht' hk'⟩

end Enabled

theorem canMove_or_waits {w : World} (hw : Reachable E w) (hc : w.crashed = none) {t : Nat}
    {th : Thread} (hth : w.threads[t]? = some th) (hr : th.returned = false) :
    w.CanMove E t ∨ (th.locking = true ∧ ∃ t' th', w.threads[t']? = some th' ∧
      (th'.holdsWrite || th'.holdsRead) = true ∧ w.CanMove E t') ∨
    (th.cacheLocking = true ∧ ∃ t' th', w.threads[t']? = some th' ∧ th'.holdsCache = true ∧
      w.CanMove E t') := by
  by_cases hh : ∃ rev ids want fan, th = .getMerkleNodes rev ids (.handler want) fan
  · obtain ⟨rev, ids, want, fan, rfl⟩ := hh
    exact .inl (handler_canMove hc hw hth)
  push_neg at hh
  cases hl : th.locking
  · by_cases hk : w.cacheHeld = true ∧ th.cacheLocking = true
    · obtain ⟨t', th', ht', hk'⟩ := exists_getElem?_of_any hk.1
      exact .inr (.inr ⟨hk.2, t', th', ht', hk', cacheHolder_canMove hc hw ht' hk'⟩)
    · exact .inl (.inl ⟨false, step_step_of_isSome hc hth (stepThread_isSome hr hl
        (by rwa [not_and_or, Bool.not_eq_true, Bool.not_eq_true] at hk)
        hh fun r => by rintro rfl; exact hw.close_rollback_ne_done t r hth)⟩)
  · rcases locking_step_or_held hc hth hl with hs | hheld
    · exact .inl (.inl ⟨false, hs⟩)
    · exact .inr (.inl ⟨rfl, held_canMove hc hw hheld⟩)

/-- No interleaving of the calls on a `treeTX` deadlocks. In every reachable world before a panic,
a call that has not returned can move (take a step, or have a fetch goroutine of its miss handler
take one), or it is about to take `t.mu` and a call holding `t.mu` can move, or it is about to
take the cache's mutex and a call holding that can move; so a world in which nothing can move is
one in which every call has returned. -/
theorem calls_never_deadlock {w : World} (hw : Reachable E w) (hc : w.crashed = none) :
    (∀ (t : Nat) (th : Thread), w.threads[t]? = some th → th.returned = false →
      w.CanMove E t ∨ (th.locking = true ∧ ∃ t' th', w.threads[t']? = some th' ∧
        (th'.holdsWrite || th'.holdsRead) = true ∧ w.CanMove E t') ∨
      (th.cacheLocking = true ∧ ∃ t' th', w.threads[t']? = some th' ∧ th'.holdsCache = true ∧
        w.CanMove E t')) ∧
    ((∀ t, ¬ w.CanMove E t) → ∀ (t : Nat) (th : Thread), w.threads[t]? = some th →
      th.returned = true) := by
  refine ⟨fun t th hth hr => canMove_or_waits hw hc hth hr, fun hno t th hth => ?_⟩
  by_contra hr
  rcases canMove_or_waits hw hc hth (Bool.eq_false_iff.2 hr) with h | ⟨-, t', -, -, -, h⟩ | ⟨-, t', -, -, -, h⟩
  · exact hno t h
  · exact hno t' h
  · exact hno t' h

/-- A `SetMerkleNodes` that waits for the cache's mutex, held by a `GetMerkleNodes` in its miss
handler: the handler's fetch can move. -/
theorem calls_never_deadlock_example :
    ∃ w, Reachable (exampleEnv .readWrite) w ∧ w.crashed = none ∧
      w.threads[1]? = some (.setMerkleNodes [⟨⟨.mk [2], 8⟩, .mk [9]⟩] (.node 5 [⟨⟨.mk [2], 8⟩, .mk [9]⟩])) ∧ (∀ b, (step (exampleEnv .readWrite) w (.step 1 b)).isNone) ∧
      (w.CanMove (exampleEnv .readWrite) 1 ∨
        ((Thread.setMerkleNodes [⟨⟨.mk [2], 8⟩, .mk [9]⟩] (.node 5 [⟨⟨.mk [2], 8⟩, .mk [9]⟩])).locking = true ∧
          ∃ t' th', w.threads[t']? = some th' ∧ (th'.holdsWrite || th'.holdsRead) = true ∧
            w.CanMove (exampleEnv .readWrite) t') ∨
        ((Thread.setMerkleNodes [⟨⟨.mk [2], 8⟩, .mk [9]⟩] (.node 5 [⟨⟨.mk [2], 8⟩, .mk [9]⟩])).cacheLocking = true ∧
          ∃ t' th', w.threads[t']? = some th' ∧ th'.holdsCache = true ∧ w.CanMove (exampleEnv .readWrite) t')) := by
  have hw := Reachable.run .init (Option.some_get (show (run (exampleEnv .readWrite)
    (World.init (exampleEnv .readWrite)) [.call (.getMerkleNodes 4 [⟨.mk [1], 8⟩]), .step 0 false,
      .call (.setMerkleNodes [⟨⟨.mk [2], 8⟩, .mk [9]⟩]), .step 1 false, .step 1 false]).isSome by decide)).symm
  refine ⟨_, hw, rfl, ?hth, by decide, (calls_never_deadlock hw rfl).1 1 _ ?hth rfl⟩
  case hth => decide

/-! ### Termination -/

def LockedPc.work : LockedPc → Nat
  | .lock => 3
  | .body => 2
  | .unlock _ => 1
  | .done _ => 0

def FetchPc.work : FetchPc → Nat
  | .start => 2
  | .send _ _ => 1
  | .done _ _ => 0

def Fanout.work (f : Fanout) : Nat := (f.fetches.map FetchPc.work).sum

def GetPc.work (ids : List NodeID) (left : Option Nat) : GetPc → Nat
  | .rlock => 3 * ids.length + 2
  | .handler _ => (left.map (· + 1)).getD 0
  | .done _ _ => 0

def SetPc.work (nodes : List Node) : SetPc → Nat
  | .rlock => 2 * nodes.length + 3
  | .writeRev => 2 * nodes.length + 2
  | .node _ rest => 2 * rest.length + 1
  | .load _ _ rest => 2 * rest.length + 2
  | .done _ => 0

def Thread.work : Thread → Nat
  | .commit pc | .rollback pc | .close (.rollback pc) => pc.work
  | .close .isOpen => 4
  | .close (.done _) => 0
  | .isOpen r => if r.isSome then 0 else 1
  | .getMerkleNodes _ ids pc fan => pc.work ids (fan.map Fanout.left) + (fan.map Fanout.work).getD 0
  | .setMerkleNodes nodes pc => pc.work nodes
  | .readRevision r | .writeRevision r => if r.isSome then 0 else 1

def World.work (w : World) : Nat :=
  (w.threads.map Thread.work).sum + if w.crashed.isSome then 0 else 1

def Action.isCall : Action → Bool
  | .call _ => true
  | .step _ _ | .fetch _ _ => false

def Action.called : Action → Option Call
  | .call c => some c
  | .step _ _ | .fetch _ _ => none

theorem sum_map_set_add {α : Type} (f : α → Nat) :
    ∀ {l : List α} {i : Nat} {x : α}, l[i]? = some x → ∀ y : α,
      ((l.set i y).map f).sum + f x = (l.map f).sum + f y
  | a :: l, 0, x, h, y => by
    simp only [List.getElem?_cons_zero, Option.some.injEq] at h
    subst h
    simp only [List.set_cons_zero, List.map_cons, List.sum_cons]
    omega
  | a :: l, i + 1, x, h, y => by
    have := sum_map_set_add f (l := l) (i := i) (by simpa using h) y
    simp only [List.set_cons_succ, List.map_cons, List.sum_cons]
    omega

@[simp] theorem Fanout.left_spawn (ids : List NodeID) : (Fanout.spawn ids).left = ids.length := rfl

theorem Fanout.work_set_lt {f f' : Fanout} {j : Nat} {x y : FetchPc} (hj : f.fetches[j]? = some x)
    (hf : f'.fetches = f.fetches.set j y) (hlt : y.work < x.work) : f'.work < f.work := by
  have := sum_map_set_add FetchPc.work hj y
  simp only [Fanout.work, hf]
  omega

@[simp] theorem Fanout.work_spawn (ids : List NodeID) : (Fanout.spawn ids).work = 2 * ids.length := by
  simp only [Fanout.work, Fanout.spawn, List.map_map]
  induction ids with
  | nil => rfl
  | cons id ids ih =>
    simp only [List.map_cons, List.sum_cons, List.length_cons, ih, Function.comp, FetchPc.work]
    omega

section Work

variable {h w k b : Bool} {t j : Nat} {th th' : Thread} {tx tx' : TX}

theorem LockedStep.work_lt {c : Bool} {pc pc' : LockedPc} (hl : LockedStep E h t c pc tx tx' pc') :
    pc'.work < pc.work := by
  cases hl <;> simp [LockedPc.work]

theorem ThreadStep.work_lt (hs : ThreadStep E h w k t b th tx tx' (.moves th')) : th'.work < th.work := by
  cases hs with
  | commit hl | rollback hl | closeRollback hl => exact hl.work_lt
  | closeReturn hl => cases hl; simp [Thread.work, LockedPc.work]
  | @getMissing _ ids =>
    have := SubtreeCache.length_missing_le E.layout tx.cache ids
    simp only [Thread.work, GetPc.work, Option.map_some', Option.getD_some, Fanout.work_spawn,
      Fanout.left_spawn, List.length_map]
    omega
  | recvSubtree hl => simp [Thread.work, GetPc.work, Fanout.work]; omega
  | _ =>
    simp only [Thread.work, GetPc.work, SetPc.work, LockedPc.work, Fanout.work, List.length_cons,
      Option.isSome_some, Option.isSome_none, Option.map_some', Option.getD_some, if_true, if_false,
      Bool.false_eq_true]
    omega

theorem FetchStep.work_lt (hs : FetchStep E t j th tx tx' (.moves th')) : th'.work < th.work := by
  cases hs with
  | get hj | sendErr hj | send hj =>
    simp only [Thread.work, Option.map_some']
    exact Nat.add_lt_add_left (Fanout.work_set_lt hj rfl (by simp [FetchPc.work])) _

end Work

theorem World.work_step {w w' : World} {a : Action} (hs : step E w a = some w') (ha : a.isCall = false) :
    w'.work < w.work := by
  have hc := step_not_crashed hs
  have hlt : ∀ (t : Nat) (th : Thread) (tx' : TX) (n : Next), w.threads[t]? = some th →
      (∀ th', n = .moves th' → th'.work < th.work) → (w.apply t (tx', n)).work < w.work := by
    intro t th tx' n hth hn
    cases n with
    | moves th' =>
      have := sum_map_set_add Thread.work hth th'
      have := hn th' rfl
      simp only [World.work, World.apply, hc] at *
      omega
    | panics p => simp [World.work, World.apply, hc]
  cases a with
  | call c => cases ha
  | step t b =>
    obtain ⟨th, tx', n, hth, hts, rfl⟩ := step_thread hs
    exact hlt t th tx' n hth fun th' hn => (hn ▸ hts).work_lt
  | fetch t j =>
    obtain ⟨th, tx', n, hth, hfs, rfl⟩ := step_fetch hs
    exact hlt t th tx' n hth fun th' hn => (hn ▸ hfs).work_lt

theorem World.work_call {w w' : World} {c : Call} (hs : step E w (.call c) = some w') :
    w'.work = w.work + c.start.work := by
  obtain ⟨-, rfl⟩ := step_call hs
  simp only [World.work, List.map_append, List.sum_append, List.map_singleton, List.sum_singleton]
  omega

/-- Every call returns, whatever the interleaving: a run from the transaction `begin` returned
takes, besides starting its calls, at most the steps its calls have when they start, and one
for a panic. That is three for `Commit` and `Rollback`, four for `Close`, one for `IsOpen`,
`ReadRevision` and `WriteRevision`, `3·len(ids) + 2` for `GetMerkleNodes` with its fetch
goroutines, and `2·len(nodes) + 3` for `SetMerkleNodes`. -/
theorem run_steps_bounded {as : List Action} {w : World} (h : run E (World.init E) as = some w) :
    (as.filter fun a => !a.isCall).length ≤ 1 + ((as.filterMap Action.called).map fun c => c.start.work).sum := by
  suffices key : ∀ (as : List Action) (w₀ : World), run E w₀ as = some w →
      (as.filter fun a => !a.isCall).length + w.work ≤
        w₀.work + ((as.filterMap Action.called).map fun c => c.start.work).sum by
    have := key as _ h
    simp only [World.work, World.init, List.map_nil, List.sum_nil, Option.isSome_none,
      Bool.false_eq_true, if_false] at this
    omega
  intro as
  induction as with
  | nil => intro w₀ h; cases h; simp
  | cons a as ih =>
    intro w₀ h
    obtain ⟨w₁, hs, hr⟩ := Option.bind_eq_some.1 h
    have := ih w₁ hr
    cases a with
    | call c =>
      have := World.work_call hs
      rw [List.filter_cons_of_neg (by simp [Action.isCall]),
        List.filterMap_cons_some (show Action.called (.call c) = some c from rfl)]
      simp only [List.map_cons, List.sum_cons]
      omega
    | step t b | fetch t j =>
      have := World.work_step hs rfl
      rw [List.filter_cons_of_pos (by simp [Action.isCall]), List.filterMap_cons_none rfl]
      simp only [List.length_cons]
      omega

theorem getMerkleNodes_returns_in_five_steps :
    ∃ w, run (exampleEnv .readOnly) (World.init (exampleEnv .readOnly))
        [.call (.getMerkleNodes 4 [⟨.mk [1], 8⟩]), .step 0 false, .fetch 0 0, .fetch 0 0,
          .step 0 false, .step 0 false] = some w ∧
      w.threads[0]?.any Thread.returned = true ∧
      ([Action.call (.getMerkleNodes 4 [⟨.mk [1], 8⟩]), .step 0 false, .fetch 0 0, .fetch 0 0,
          .step 0 false, .step 0 false].filter fun a => !a.isCall).length ≤
        1 + (([Action.call (.getMerkleNodes 4 [⟨.mk [1], 8⟩]), .step 0 false, .fetch 0 0,
          .fetch 0 0, .step 0 false, .step 0 false].filterMap Action.called).map
            fun c => c.start.work).sum := by
  have hr := (Option.some_get (show (run (exampleEnv .readOnly) (World.init (exampleEnv .readOnly))
    [.call (.getMerkleNodes 4 [⟨.mk [1], 8⟩]), .step 0 false, .fetch 0 0, .fetch 0 0,
      .step 0 false, .step 0 false]).isSome by decide)).symm
  exact ⟨_, hr, by decide, run_steps_bounded hr⟩

theorem World.CanMove.step {w : World} {t : Nat} (h : w.CanMove E t) :
    ∃ a w', a.isCall = false ∧ step E w a = some w' := by
  rcases h with ⟨b, w', h⟩ | ⟨j, w', h⟩
  exacts [⟨.step t b, w', rfl, h⟩, ⟨.fetch t j, w', rfl, h⟩]

/-- Every call can be driven to its return: from every state of a run, some schedule of steps,
starting no call, ends where every call has returned or a panic has ended the program. Each
step is one that no deadlock can withhold, and each takes one from the steps the world has
left. -/
theorem calls_all_return {w : World} (hw : Reachable E w) :
    ∃ as w', (∀ a ∈ as, a.isCall = false) ∧ run E w as = some w' ∧
      (w'.crashed.isSome ∨ ∀ (t : Nat) (th : Thread), w'.threads[t]? = some th → th.returned = true) := by
  suffices key : ∀ (k : Nat) (w : World), w.work = k → Reachable E w → ∃ as w',
      (∀ a ∈ as, a.isCall = false) ∧ run E w as = some w' ∧ (w'.crashed.isSome ∨
        ∀ (t : Nat) (th : Thread), w'.threads[t]? = some th → th.returned = true) from key _ w rfl hw
  intro k
  induction k using Nat.strong_induction_on with
  | _ k ih =>
    intro w hwork hw
    by_cases hc : w.crashed.isSome
    · exact ⟨[], w, by simp, rfl, .inl hc⟩
    by_cases hall : ∀ (t : Nat) (th : Thread), w.threads[t]? = some th → th.returned = true
    · exact ⟨[], w, by simp, rfl, .inr hall⟩
    push_neg at hall
    obtain ⟨t, th, hth, hr⟩ := hall
    obtain ⟨a, w₁, ha, hs⟩ : ∃ a w₁, a.isCall = false ∧ step E w a = some w₁ := by
      rcases canMove_or_waits hw (by simpa using hc) hth (by simpa using hr) with
        h | ⟨-, _, _, -, -, h⟩ | ⟨-, _, _, -, -, h⟩ <;>
        exact World.CanMove.step h
    obtain ⟨as, w', has, hrun, hend⟩ := ih _ (hwork ▸ World.work_step hs ha) w₁ rfl (hw.step a hs)
    refine ⟨a :: as, w', ?_, by simp [run, hs, hrun], hend⟩
    simpa [ha] using has

theorem calls_all_return_example :
    ∃ w, Reachable (exampleEnv .readWrite) w ∧ w.threads.length = 3 ∧
      ∃ as w', (∀ a ∈ as, a.isCall = false) ∧ run (exampleEnv .readWrite) w as = some w' ∧
        (w'.crashed.isSome ∨ ∀ (t : Nat) (th : Thread), w'.threads[t]? = some th → th.returned = true) := by
  have hw := Reachable.run .init (Option.some_get (show (run (exampleEnv .readWrite)
    (World.init (exampleEnv .readWrite)) [.call (.getMerkleNodes 4 [⟨.mk [1], 8⟩]), .step 0 false,
      .call .commit, .call (.setMerkleNodes [⟨⟨.mk [2], 8⟩, .mk [9]⟩])]).isSome by decide)).symm
  exact ⟨_, hw, by decide, calls_all_return hw⟩

end TrillianSpanner
