import TrillianSpanner.TreeTX.Model

/-! What one step of a run can do. The steps of `Commit` and `Rollback` under `t.mu`, of a call,
and of a fetch goroutine are relations with one constructor per branch of the step functions;
`step_cases` turns a step of the world into one of them. Every invariant of the model is proved
by cases on these relations. -/

namespace TrillianSpanner

variable (E : Env)

inductive LockedStep (h : Bool) (t : Nat) (commit : Bool) : LockedPc → TX → TX → LockedPc → Prop
  | lock {tx : TX} : h = false → LockedStep h t commit .lock tx tx .body
  | closed {tx : TX} : tx.stx = none →
      LockedStep h t commit .body tx (tx.emit (.locked t false)) (.unlock (some .transactionClosed))
  | readOnly {tx : TX} : tx.stx = some .readOnly → commit = true →
      LockedStep h t commit .body tx ((tx.emit (.locked t true)).emit (.roClose t)) (.unlock none)
  | readWrite {tx : TX} {ms : List SubtreeDataRow} {err : Option Error} :
      tx.stx = some .readWrite → commit = true →
      storeSubtrees E.marshal E.bufferWrite E.treeID tx.writeRev tx.stx (tx.cache.dirtySubtrees.map some) =
        (ms, err) →
      LockedStep h t commit .body tx { tx with log := tx.log ++
        (.locked t true :: .flush t tx.cache.dirtySubtrees :: ms.map (.buffer t)) } (.unlock err)
  | other {tx : TX} : tx.stx = some .other → commit = true →
      LockedStep h t commit .body tx (tx.emit (.locked t true)) (.unlock (some .unknownTxType))
  | rollback {tx : TX} {sc : Scope} : tx.stx = some sc → commit = false →
      LockedStep h t commit .body tx (tx.emit (.locked t true)) (.unlock none)
  | unlock {tx : TX} {r : Option Error} : LockedStep h t commit (.unlock r) tx (tx.release t) (.done r)

inductive ThreadStep (h w k : Bool) (t : Nat) (b : Bool) : Thread → TX → TX → Next → Prop
  | commit {pc pc' : LockedPc} {tx tx' : TX} : LockedStep E h t true pc tx tx' pc' →
      ThreadStep h w k t b (.commit pc) tx tx' (.moves (.commit pc'))
  | rollback {pc pc' : LockedPc} {tx tx' : TX} : LockedStep E h t false pc tx tx' pc' →
      ThreadStep h w k t b (.rollback pc) tx tx' (.moves (.rollback pc'))
  | closeClosed {tx : TX} : w = false → tx.stx = none →
      ThreadStep h w k t b (.close .isOpen) tx ((tx.emit (.checked t false)).emit (.returned t))
        (.moves (.close (.done none)))
  | closeOpen {tx : TX} {sc : Scope} : w = false → tx.stx = some sc →
      ThreadStep h w k t b (.close .isOpen) tx (tx.emit (.checked t true))
        (.moves (.close (.rollback .lock)))
  | closeRollback {pc pc' : LockedPc} {tx tx' : TX} : LockedStep E h t false pc tx tx' pc' →
      (∀ r, pc' ≠ .done r) →
      ThreadStep h w k t b (.close (.rollback pc)) tx tx' (.moves (.close (.rollback pc')))
  | closeReturn {pc : LockedPc} {tx tx' : TX} {r : Option Error} :
      LockedStep E h t false pc tx tx' (.done r) →
      ThreadStep h w k t b (.close (.rollback pc)) tx tx' (.moves (.close (.done (closeResult r))))
  | isOpen {tx : TX} : w = false →
      ThreadStep h w k t b (.isOpen none) tx ((tx.emit (.checked t tx.stx.isSome)).emit (.returned t))
        (.moves (.isOpen (some tx.stx.isSome)))
  | getClosed {rev : Int} {ids : List NodeID} {fan : Option Fanout} {tx : TX} : w = false →
      tx.stx = none →
      ThreadStep h w k t b (.getMerkleNodes rev ids .rlock fan) tx
        ((tx.emit (.checked t false)).emit (.returned t))
        (.moves (.getMerkleNodes rev ids (.done none (some .transactionClosed)) fan))
  | getCached {rev : Int} {ids : List NodeID} {fan : Option Fanout} {tx : TX} {sc : Scope} :
      w = false → tx.stx = some sc → tx.cache.missing E.layout ids = [] → k = false →
      ThreadStep h w k t b (.getMerkleNodes rev ids .rlock fan) tx
        (((tx.emit (.checked t true)).emit (.getNodes t)).emit (.returned t))
        (.moves (.getMerkleNodes rev ids (.done (some (tx.cache.nodes E.layout ids)) none) fan))
  | getMissing {rev : Int} {ids : List NodeID} {fan : Option Fanout} {tx : TX} {sc : Scope} :
      w = false → tx.stx = some sc → tx.cache.missing E.layout ids ≠ [] → k = false →
      ThreadStep h w k t b (.getMerkleNodes rev ids .rlock fan) tx
        ((tx.emit (.checked t true)).emit (.getNodes t))
        (.moves (.getMerkleNodes rev ids (.handler (tx.cache.missing E.layout ids))
          (some (Fanout.spawn ((tx.cache.missing E.layout ids).map fun w => w.2)))))
  | handlerReturn {rev : Int} {ids : List NodeID} {want : List (List UInt8 × NodeID)} {fan : Fanout}
      {tx : TX} : fan.left = 0 →
      ThreadStep h w k t b (.getMerkleNodes rev ids (.handler want) (some fan)) tx
        ({ tx with cache := tx.cache.populate E.layout want fan.ret }.emit (.returned t))
        (.moves (.getMerkleNodes rev ids
          (.done (some ((tx.cache.populate E.layout want fan.ret).nodes E.layout ids)) none)
          (some { fan with result := some (some fan.ret, none) })))
  | recvErr {rev : Int} {ids : List NodeID} {want : List (List UInt8 × NodeID)} {fan : Fanout}
      {tx : TX} {e : Error} {errc : List Error} : fan.left ≠ 0 → fan.errc = e :: errc →
      (fan.c = [] ∨ b = true) →
      ThreadStep h w k t b (.getMerkleNodes rev ids (.handler want) (some fan)) tx
        (tx.emit (.returned t))
        (.moves (.getMerkleNodes rev ids (.done none (some e))
          (some { fan with errc := errc, result := some (none, some e) })))
  | recvSubtree {rev : Int} {ids : List NodeID} {want : List (List UInt8 × NodeID)} {fan : Fanout}
      {tx : TX} {st : Option SubtreeProto} {c : List (Option SubtreeProto)} : fan.left ≠ 0 →
      fan.c = st :: c → (fan.errc = [] ∨ b = false) →
      ThreadStep h w k t b (.getMerkleNodes rev ids (.handler want) (some fan)) tx tx
        (.moves (.getMerkleNodes rev ids (.handler want) (some { fan with
          c := c, ret := fan.ret ++ st.toList, left := fan.left - 1 })))
  | setClosed {nodes : List Node} {tx : TX} : w = false → tx.stx = none →
      ThreadStep h w k t b (.setMerkleNodes nodes .rlock) tx
        ((tx.emit (.checked t false)).emit (.returned t))
        (.moves (.setMerkleNodes nodes (.done (some .transactionClosed))))
  | setOpen {nodes : List Node} {tx : TX} {sc : Scope} : w = false → tx.stx = some sc →
      ThreadStep h w k t b (.setMerkleNodes nodes .rlock) tx (tx.emit (.checked t true))
        (.moves (.setMerkleNodes nodes .writeRev))
  | rootPanic {nodes : List Node} {tx : TX} {p : GoPanic} : tx.getLatestRoot E t = .error p →
      ThreadStep h w k t b (.setMerkleNodes nodes .writeRev) tx tx (.panics p)
  | rootError {nodes : List Node} {tx tx' : TX} {e : Error} : tx.getLatestRoot E t = .ok tx' →
      tx'.currentSTHErr = some e →
      ThreadStep h w k t b (.setMerkleNodes nodes .writeRev) tx (tx'.emit (.returned t))
        (.moves (.setMerkleNodes nodes (.done (some e))))
  | root {nodes : List Node} {tx tx' : TX} : tx.getLatestRoot E t = .ok tx' →
      tx'.currentSTHErr = none →
      ThreadStep h w k t b (.setMerkleNodes nodes .writeRev) tx tx'
        (.moves (.setMerkleNodes nodes (.node tx'.writeRev nodes)))
  | setReturn {nodes : List Node} {wr : Int} {tx : TX} :
      ThreadStep h w k t b (.setMerkleNodes nodes (.node wr [])) tx (tx.emit (.returned t))
        (.moves (.setMerkleNodes nodes (.done none)))
  | setHit {nodes rest : List Node} {n : Node} {wr : Int} {tx : TX} {st : SubtreeProto} :
      tx.cache.lookup (E.layout.prefixOf n.NodeID) = some st → k = false →
      ThreadStep h w k t b (.setMerkleNodes nodes (.node wr (n :: rest))) tx
        ({ tx with cache := tx.cache.setNode E.layout n }.emit (.setNodeHash t n))
        (.moves (.setMerkleNodes nodes (.node wr rest)))
  | setMiss {nodes rest : List Node} {n : Node} {wr : Int} {tx : TX} :
      tx.cache.lookup (E.layout.prefixOf n.NodeID) = none → k = false →
      ThreadStep h w k t b (.setMerkleNodes nodes (.node wr (n :: rest))) tx tx
        (.moves (.setMerkleNodes nodes (.load wr n rest)))
  | loadPanic {nodes rest : List Node} {n : Node} {wr : Int} {tx : TX} {p : GoPanic} :
      tx.getSubtree E (wrapInt64 (wr - 1)) (E.layout.subtreeID n.NodeID) = .error p →
      ThreadStep h w k t b (.setMerkleNodes nodes (.load wr n rest)) tx
        (tx.logRead t (wrapInt64 (wr - 1)) (E.layout.subtreeID n.NodeID)) (.panics p)
  | loadError {nodes rest : List Node} {n : Node} {wr : Int} {tx : TX} {st : Option SubtreeProto}
      {e : Error} :
      tx.getSubtree E (wrapInt64 (wr - 1)) (E.layout.subtreeID n.NodeID) = .ok (st, some e) →
      ThreadStep h w k t b (.setMerkleNodes nodes (.load wr n rest)) tx
        ((tx.logRead t (wrapInt64 (wr - 1)) (E.layout.subtreeID n.NodeID)).emit (.returned t))
        (.moves (.setMerkleNodes nodes (.done (some e))))
  | load {nodes rest : List Node} {n : Node} {wr : Int} {tx : TX} {st : Option SubtreeProto} :
      tx.getSubtree E (wrapInt64 (wr - 1)) (E.layout.subtreeID n.NodeID) = .ok (st, none) →
      ThreadStep h w k t b (.setMerkleNodes nodes (.load wr n rest)) tx
        ({ tx.logRead t (wrapInt64 (wr - 1)) (E.layout.subtreeID n.NodeID) with
          cache := (tx.cache.insert (E.layout.prefixOf n.NodeID)
            (st.getD (E.layout.empty (E.layout.subtreeID n.NodeID)))).setNode E.layout n }.emit
          (.setNodeHash t n))
        (.moves (.setMerkleNodes nodes (.node wr rest)))
  | readPanic {tx : TX} {p : GoPanic} : tx.getLatestRoot E t = .error p →
      ThreadStep h w k t b (.readRevision none) tx tx (.panics p)
  | readError {tx tx' : TX} {e : Error} : tx.getLatestRoot E t = .ok tx' →
      tx'.currentSTHErr = some e → ThreadStep h w k t b (.readRevision none) tx tx' (.panics (.value e))
  | readNil {tx tx' : TX} : tx.getLatestRoot E t = .ok tx' → tx'.currentSTHErr = none →
      tx'.currentSTH = none → ThreadStep h w k t b (.readRevision none) tx tx' (.panics .nilDereference)
  | read {tx tx' : TX} {th : TreeHead} : tx.getLatestRoot E t = .ok tx' →
      tx'.currentSTHErr = none → tx'.currentSTH = some th →
      ThreadStep h w k t b (.readRevision none) tx (tx'.emit (.returned t))
        (.moves (.readRevision (some th.TreeRevision)))
  | writePanic {tx : TX} {p : GoPanic} : tx.getLatestRoot E t = .error p →
      ThreadStep h w k t b (.writeRevision none) tx tx (.panics p)
  | writeError {tx tx' : TX} {e : Error} : tx.getLatestRoot E t = .ok tx' →
      tx'.currentSTHErr = some e → ThreadStep h w k t b (.writeRevision none) tx tx' (.panics (.value e))
  | write {tx tx' : TX} : tx.getLatestRoot E t = .ok tx' → tx'.currentSTHErr = none →
      ThreadStep h w k t b (.writeRevision none) tx (tx'.emit (.returned t))
        (.moves (.writeRevision (some tx'.writeRev)))

inductive FetchStep (t j : Nat) : Thread → TX → TX → Next → Prop
  | getPanic {rev : Int} {ids : List NodeID} {pc : GetPc} {fan : Fanout} {tx : TX} {id : NodeID}
      {p : GoPanic} : fan.fetches[j]? = some .start → fan.ids[j]? = some id →
      tx.getSubtree E rev id = .error p →
      FetchStep t j (.getMerkleNodes rev ids pc (some fan)) tx (tx.logRead t rev id) (.panics p)
  | get {rev : Int} {ids : List NodeID} {pc : GetPc} {fan : Fanout} {tx : TX} {id : NodeID}
      {st : Option SubtreeProto} {err : Option Error} : fan.fetches[j]? = some .start →
      fan.ids[j]? = some id → tx.getSubtree E rev id = .ok (st, err) →
      FetchStep t j (.getMerkleNodes rev ids pc (some fan)) tx (tx.logRead t rev id)
        (.moves (.getMerkleNodes rev ids pc (some { fan with
          fetches := fan.fetches.set j (.send st err) })))
  | sendErr {rev : Int} {ids : List NodeID} {pc : GetPc} {fan : Fanout} {tx : TX}
      {st : Option SubtreeProto} {e : Error} : fan.fetches[j]? = some (.send st (some e)) →
      fan.errc.length < fan.ids.length →
      FetchStep t j (.getMerkleNodes rev ids pc (some fan)) tx tx
        (.moves (.getMerkleNodes rev ids pc (some { fan with
          errc := fan.errc ++ [e], fetches := fan.fetches.set j (.done st (some e)) })))
  | send {rev : Int} {ids : List NodeID} {pc : GetPc} {fan : Fanout} {tx : TX}
      {st : Option SubtreeProto} : fan.fetches[j]? = some (.send st none) →
      fan.c.length < fan.ids.length →
      FetchStep t j (.getMerkleNodes rev ids pc (some fan)) tx tx
        (.moves (.getMerkleNodes rev ids pc (some { fan with
          c := fan.c ++ [st], fetches := fan.fetches.set j (.done st none) })))

variable {E}

theorem LockedStep.of_stepLocked {tx tx' : TX} {h : Bool} {t : Nat} {commit : Bool}
    {pc pc' : LockedPc} (hs : stepLocked E tx h t commit pc = some (tx', pc')) :
    LockedStep E h t commit pc tx tx' pc' := by
  cases pc with
  | lock =>
    cases h <;> simp [stepLocked] at hs
    obtain ⟨rfl, rfl⟩ := hs
    exact .lock rfl
  | body =>
    simp only [stepLocked] at hs
    split at hs
    · simp only [Option.some.injEq, Prod.mk.injEq] at hs
      obtain ⟨rfl, rfl⟩ := hs
      exact .closed ‹_›
    · rename_i sc hstx
      cases commit with
      | false =>
        simp only [Bool.false_eq_true, reduceIte, Option.some.injEq, Prod.mk.injEq] at hs
        obtain ⟨rfl, rfl⟩ := hs
        exact .rollback hstx rfl
      | true =>
        simp only [reduceIte] at hs
        split at hs <;> try split at hs
        all_goals simp only [Option.some.injEq, Prod.mk.injEq] at hs; obtain ⟨rfl, rfl⟩ := hs
        · exact .readOnly hstx rfl
        · exact .readWrite hstx rfl rfl
        · exact .other hstx rfl
  | unlock r =>
    simp only [stepLocked, Option.some.injEq, Prod.mk.injEq] at hs
    obtain ⟨rfl, rfl⟩ := hs
    exact .unlock
  | done r => cases hs

theorem ThreadStep.of_stepThread {tx tx' : TX} {h w k : Bool} {t : Nat} {b : Bool} {th : Thread}
    {n : Next} (hs : stepThread E tx h w k t b th = some (tx', n)) : ThreadStep E h w k t b th tx tx' n := by
  cases th with
  | commit pc =>
    simp only [stepThread, Option.map_eq_some'] at hs
    obtain ⟨⟨tx₁, pc'⟩, hl, hr⟩ := hs
    cases hr
    exact .commit (.of_stepLocked hl)
  | rollback pc =>
    simp only [stepThread, Option.map_eq_some'] at hs
    obtain ⟨⟨tx₁, pc'⟩, hl, hr⟩ := hs
    cases hr
    exact .rollback (.of_stepLocked hl)
  | close pc =>
    cases pc with
    | isOpen =>
      cases w
      · simp only [stepThread, Bool.false_eq_true, reduceIte] at hs
        split at hs <;> simp only [Option.some.injEq, Prod.mk.injEq] at hs <;> obtain ⟨rfl, rfl⟩ := hs
        · exact .closeClosed rfl ‹_›
        · exact .closeOpen rfl ‹_›
      · simp [stepThread] at hs
    | rollback pc =>
      simp only [stepThread, Option.map_eq_some'] at hs
      obtain ⟨⟨tx₁, pc'⟩, hl, hr⟩ := hs
      cases hr
      cases pc' with
      | done r => exact .closeReturn (.of_stepLocked hl)
      | _ => exact .closeRollback (.of_stepLocked hl) (by simp)
    | done r => simp [stepThread] at hs
  | isOpen r =>
    cases r with
    | none =>
      cases w
      · simp only [stepThread, Bool.false_eq_true, reduceIte, Option.some.injEq,
          Prod.mk.injEq] at hs
        obtain ⟨rfl, rfl⟩ := hs
        exact .isOpen rfl
      · simp [stepThread] at hs
    | some r => simp [stepThread] at hs
  | getMerkleNodes rev ids pc fan =>
    cases pc with
    | rlock =>
      cases w
      · simp only [stepThread, Bool.false_eq_true, reduceIte] at hs
        split at hs
        · simp only [Option.some.injEq, Prod.mk.injEq] at hs
          obtain ⟨rfl, rfl⟩ := hs
          exact .getClosed rfl ‹_›
        · cases k
          · simp only [Bool.false_eq_true, reduceIte] at hs
            split at hs <;> simp only [Option.some.injEq, Prod.mk.injEq] at hs <;>
              obtain ⟨rfl, rfl⟩ := hs
            · exact .getCached rfl ‹_› ‹_› rfl
            · exact .getMissing rfl ‹_› ‹_› rfl
          · simp at hs
      · simp [stepThread] at hs
    | handler want =>
      cases fan with
      | none => simp [stepThread] at hs
      | some fan =>
        simp only [stepThread, stepHandler] at hs
        split at hs
        · simp only [Option.some.injEq, Prod.mk.injEq] at hs
          obtain ⟨rfl, rfl⟩ := hs
          exact .handlerReturn ‹_›
        · rename_i hleft
          split at hs
          · cases hs; exact .recvErr hleft ‹_› (.inl ‹_›)
          · cases b
            · cases hs; exact .recvSubtree hleft ‹_› (.inr rfl)
            · cases hs; exact .recvErr hleft ‹_› (.inr rfl)
          · cases hs; exact .recvSubtree hleft ‹_› (.inl ‹_›)
          · cases hs
    | done nodes err => simp [stepThread] at hs
  | setMerkleNodes nodes pc =>
    cases pc with
    | rlock =>
      cases w
      · simp only [stepThread, stepSet, Bool.false_eq_true, reduceIte] at hs
        split at hs <;> simp only [Option.some.injEq, Prod.mk.injEq] at hs <;> obtain ⟨rfl, rfl⟩ := hs
        · exact .setClosed rfl ‹_›
        · exact .setOpen rfl ‹_›
      · simp [stepThread, stepSet] at hs
    | writeRev =>
      simp only [stepThread, stepSet] at hs
      split at hs
      · cases hs; exact .rootPanic ‹_›
      · split at hs <;> simp only [Option.some.injEq, Prod.mk.injEq] at hs <;> obtain ⟨rfl, rfl⟩ := hs
        · exact .rootError ‹_› ‹_›
        · exact .root ‹_› ‹_›
    | node wr rest =>
      cases rest with
      | nil =>
        simp only [stepThread, stepSet, Option.some.injEq, Prod.mk.injEq] at hs
        obtain ⟨rfl, rfl⟩ := hs
        exact .setReturn
      | cons n rest =>
        cases k
        · simp only [stepThread, stepSet, Bool.false_eq_true, reduceIte] at hs
          split at hs <;> simp only [Option.some.injEq, Prod.mk.injEq] at hs <;> obtain ⟨rfl, rfl⟩ := hs
          · exact .setHit ‹_› rfl
          · exact .setMiss ‹_› rfl
        · simp [stepThread, stepSet] at hs
    | load wr n rest =>
      simp only [stepThread, stepSet] at hs
      split at hs <;> simp only [Option.some.injEq, Prod.mk.injEq] at hs <;> obtain ⟨rfl, rfl⟩ := hs
      · exact .loadPanic ‹_›
      · exact .loadError ‹_›
      · exact .load ‹_›
    | done r => simp [stepThread, stepSet] at hs
  | readRevision r =>
    cases r with
    | none =>
      simp only [stepThread, stepReadRevision] at hs
      split at hs
      · cases hs; exact .readPanic ‹_›
      · split at hs <;> simp only [Option.some.injEq, Prod.mk.injEq] at hs <;> obtain ⟨rfl, rfl⟩ := hs
        · exact .readError ‹_› ‹_›
        · exact .readNil ‹_› ‹_› ‹_›
        · exact .read ‹_› ‹_› ‹_›
    | some r => simp [stepThread] at hs
  | writeRevision r =>
    cases r with
    | none =>
      simp only [stepThread, stepWriteRevision] at hs
      split at hs
      · cases hs; exact .writePanic ‹_›
      · split at hs <;> simp only [Option.some.injEq, Prod.mk.injEq] at hs <;> obtain ⟨rfl, rfl⟩ := hs
        · exact .writeError ‹_› ‹_›
        · exact .write ‹_› ‹_›
    | some r => simp [stepThread] at hs

theorem FetchStep.of_stepFetch {tx tx' : TX} {t j : Nat} {th : Thread} {n : Next}
    (hs : stepFetch E tx t j th = some (tx', n)) : FetchStep E t j th tx tx' n := by
  cases th
  case getMerkleNodes rev ids pc fan =>
    cases fan with
    | none => simp [stepFetch] at hs
    | some fan =>
      simp only [stepFetch] at hs
      split at hs
      · split at hs <;> simp only [Option.some.injEq, Prod.mk.injEq] at hs <;>
          obtain ⟨rfl, rfl⟩ := hs
        · exact .getPanic ‹_› ‹_› ‹_›
        · exact .get ‹_› ‹_› ‹_›
      · split at hs
        · simp only [Option.some.injEq, Prod.mk.injEq] at hs
          obtain ⟨rfl, rfl⟩ := hs
          exact .sendErr ‹_› ‹_›
        · cases hs
      · split at hs
        · simp only [Option.some.injEq, Prod.mk.injEq] at hs
          obtain ⟨rfl, rfl⟩ := hs
          exact .send ‹_› ‹_›
        · cases hs
      · cases hs
  all_goals simp [stepFetch] at hs

theorem step_call {w w' : World} {c : Call} (h : step E w (.call c) = some w') :
    w.crashed = none ∧ w' = { w with threads := w.threads ++ [c.start] } := by
  simp only [step] at h
  split at h
  · cases h
  · rename_i hc
    cases h
    exact ⟨by simpa using hc, rfl⟩

theorem step_thread {w w' : World} {t : Nat} {b : Bool} (h : step E w (.step t b) = some w') :
    ∃ th tx' n, w.threads[t]? = some th ∧ ThreadStep E w.held w.writeHeld w.cacheHeld t b th w.tx tx' n ∧
      w' = w.apply t (tx', n) := by
  simp only [step] at h
  split at h
  · cases h
  · simp only [Option.map_eq_some', Option.bind_eq_some] at h
    obtain ⟨⟨tx', n⟩, ⟨th, hth, hs⟩, rfl⟩ := h
    exact ⟨th, tx', n, hth, .of_stepThread hs, rfl⟩

theorem step_fetch {w w' : World} {t j : Nat} (h : step E w (.fetch t j) = some w') :
    ∃ th tx' n, w.threads[t]? = some th ∧ FetchStep E t j th w.tx tx' n ∧ w' = w.apply t (tx', n) := by
  simp only [step] at h
  split at h
  · cases h
  · simp only [Option.map_eq_some', Option.bind_eq_some] at h
    obtain ⟨⟨tx', n⟩, ⟨th, hth, hs⟩, rfl⟩ := h
    exact ⟨th, tx', n, hth, .of_stepFetch hs, rfl⟩

theorem step_cases {w w' : World} {a : Action} (h : step E w a = some w') :
    (∃ c, w' = { w with threads := w.threads ++ [Call.start c] }) ∨
    (∃ t b th tx' n, w.threads[t]? = some th ∧
      ThreadStep E w.held w.writeHeld w.cacheHeld t b th w.tx tx' n ∧ w' = w.apply t (tx', n)) ∨
    (∃ t j th tx' n, w.threads[t]? = some th ∧ FetchStep E t j th w.tx tx' n ∧
      w' = w.apply t (tx', n)) := by
  cases a with
  | call c => exact .inl ⟨c, (step_call h).2⟩
  | step t b => exact .inr (.inl ⟨t, b, step_thread h⟩)
  | fetch t j => exact .inr (.inr ⟨t, j, step_fetch h⟩)

@[simp] theorem World.apply_tx (w : World) (t : Nat) (r : TX × Next) : (w.apply t r).tx = r.1 := by
  obtain ⟨tx, _ | _⟩ := r <;> rfl

@[simp] theorem World.apply_moves_threads (w : World) (t : Nat) (tx : TX) (th : Thread) :
    (w.apply t (tx, .moves th)).threads = w.threads.set t th := rfl

@[simp] theorem World.apply_panics_threads (w : World) (t : Nat) (tx : TX) (p : GoPanic) :
    (w.apply t (tx, .panics p)).threads = w.threads := rfl

theorem World.held_eq_false {w : World} (h : w.held = false) {i : Nat} {th : Thread}
    (hi : w.threads[i]? = some th) : th.holdsWrite = false ∧ th.holdsRead = false := by
  have := List.any_eq_false.1 h th (List.mem_iff_getElem?.2 ⟨i, hi⟩)
  simpa using this

theorem World.writeHeld_eq_false {w : World} (h : w.writeHeld = false) {i : Nat} {th : Thread}
    (hi : w.threads[i]? = some th) : th.holdsWrite = false := by
  simpa using List.any_eq_false.1 h th (List.mem_iff_getElem?.2 ⟨i, hi⟩)

theorem World.cacheHeld_eq_false {w : World} (h : w.cacheHeld = false) {i : Nat} {th : Thread}
    (hi : w.threads[i]? = some th) : th.holdsCache = false := by
  simpa using List.any_eq_false.1 h th (List.mem_iff_getElem?.2 ⟨i, hi⟩)

theorem TX.getLatestRoot_ok {tx tx' : TX} {t : Nat} (h : tx.getLatestRoot E t = .ok tx') :
    (tx.onceDone = true ∧ tx' = tx) ∨ (tx.onceDone = false ∧ tx.stx.isSome ∧ tx' = tx.resolve E t) := by
  unfold TX.getLatestRoot at h
  split at h
  · cases h; exact .inl ⟨‹_›, rfl⟩
  · split at h
    · cases h
    · cases h; exact .inr ⟨by simp_all, by simp [*], rfl⟩

end TrillianSpanner
