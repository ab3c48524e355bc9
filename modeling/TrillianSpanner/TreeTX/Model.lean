import TrillianSpanner.Cache
import TrillianSpanner.TreeHead

/-! `treeTX` as a concurrent object. The calls on one transaction are threads, stepped one at a
time in any order; `t.mu` is read off who holds it, the `sync.Once` of `getLatestRoot` is a
flag, and each `GetMerkleNodes` carries the goroutines and channels of its miss handler. The
cache serialises its own operations with a mutex, modelled from the spec and read off its
holders like `t.mu`: `GetNodes` holds it from its want list to its return, and `SetNodeHash` through
its loader. Every effect on the cache, the backend and the open/closed state is appended to a
log. An unrecovered panic ends the program, and with it the run. -/

namespace TrillianSpanner

structure Env where
  treeID : Int
  scope : Scope
  /-- The rows of `latestSTH`'s query on the scope. -/
  heads : RowStream HeadRow
  /-- `Read` of `SubtreeData` on the scope, by subtree key. -/
  read : List UInt8 → RowStream SubtreeRow
  unmarshal : List UInt8 → Except Nat SubtreeProto
  marshal : SubtreeProto → Except Nat (List UInt8)
  /-- `BufferWrite` of one insert on the scope: the Spanner client's error, if it fails. -/
  bufferWrite : SubtreeDataRow → Option Nat
  unmarshalSig : List UInt8 → Except Nat DigitallySigned
  unmarshalMeta : List UInt8 → Except Nat AnyPB
  layout : NodeLayout

inductive LockedPc
  | lock
  | body
  | unlock (r : Option Error)
  | done (r : Option Error)
  deriving DecidableEq, Repr

inductive ClosePc
  | isOpen
  | rollback (pc : LockedPc)
  | done (r : Option Error)
  deriving DecidableEq, Repr

inductive FetchPc
  | start
  | send (st : Option SubtreeProto) (err : Option Error)
  | done (st : Option SubtreeProto) (err : Option Error)
  deriving DecidableEq, Repr

structure Fanout where
  ids : List NodeID
  fetches : List FetchPc
  c : List (Option SubtreeProto)
  errc : List Error
  ret : List SubtreeProto
  left : Nat
  result : Option (Option (List SubtreeProto) × Option Error)
  deriving DecidableEq, Repr

def Fanout.spawn (ids : List NodeID) : Fanout :=
  ⟨ids, ids.map fun _ => .start, [], [], [], ids.length, none⟩

inductive GetPc
  | rlock
  | handler (want : List (List UInt8 × NodeID))
  | done (nodes : Option (List Node)) (err : Option Error)
  deriving DecidableEq, Repr

inductive SetPc
  | rlock
  | writeRev
  | node (writeRev : Int) (rest : List Node)
  | load (writeRev : Int) (n : Node) (rest : List Node)
  | done (err : Option Error)
  deriving DecidableEq, Repr

inductive Thread
  | commit (pc : LockedPc)
  | rollback (pc : LockedPc)
  | close (pc : ClosePc)
  | isOpen (r : Option Bool)
  | getMerkleNodes (rev : Int) (ids : List NodeID) (pc : GetPc) (fan : Option Fanout)
  | setMerkleNodes (nodes : List Node) (pc : SetPc)
  | readRevision (r : Option Int)
  | writeRevision (r : Option Int)
  deriving DecidableEq, Repr

inductive Event
  /-- A `Commit` or `Rollback` found `t.stx` open or nil under the write lock. -/
  | locked (tid : Nat) (isOpen : Bool)
  /-- `IsOpen`, `GetMerkleNodes` or `SetMerkleNodes` found `t.stx` open or nil under the read
  lock. -/
  | checked (tid : Nat) (isOpen : Bool)
  /-- The deferred `t.stx = nil` closed an open transaction. -/
  | closed (tid : Nat)
  /-- `Close` of the `ReadOnlyTransaction`. -/
  | roClose (tid : Nat)
  /-- `cache.Flush` handed these subtrees to `storeSubtrees`. -/
  | flush (tid : Nat) (sts : List SubtreeProto)
  /-- `BufferWrite` of one insert. -/
  | buffer (tid : Nat) (m : SubtreeDataRow)
  /-- A call of `cache.GetNodes`. -/
  | getNodes (tid : Nat)
  /-- `cache.SetNodeHash` took a node. -/
  | setNodeHash (tid : Nat) (n : Node)
  /-- `getSubtree` at `rev` read `t.stx` and called `Read` on it. -/
  | read (tid : Nat) (rev : Int) (stx : Option Scope)
  /-- `latestSTH` queried the tree heads. -/
  | query (tid : Nat)
  | returned (tid : Nat)
  deriving DecidableEq, Repr

def Event.tid : Event → Nat
  | .locked t _ | .checked t _ | .closed t | .roClose t | .flush t _ | .buffer t _ | .getNodes t
  | .setNodeHash t _ | .read t _ _ | .query t | .returned t => t

inductive Call
  | commit
  | rollback
  | close
  | isOpen
  | getMerkleNodes (rev : Int) (ids : List NodeID)
  | setMerkleNodes (nodes : List Node)
  | readRevision
  | writeRevision
  deriving DecidableEq, Repr

def Call.start : Call → Thread
  | .commit => .commit .lock
  | .rollback => .rollback .lock
  | .close => .close .isOpen
  | .isOpen => .isOpen none
  | .getMerkleNodes rev ids => .getMerkleNodes rev ids .rlock none
  | .setMerkleNodes nodes => .setMerkleNodes nodes .rlock
  | .readRevision => .readRevision none
  | .writeRevision => .writeRevision none

inductive Action
  | call (c : Call)
  | step (tid : Nat) (errFirst : Bool)
  | fetch (tid j : Nat)
  deriving DecidableEq, Repr

def Thread.holdsWrite : Thread → Bool
  | .commit .body | .commit (.unlock _) | .rollback .body | .rollback (.unlock _)
  | .close (.rollback .body) | .close (.rollback (.unlock _)) => true
  | _ => false

def Thread.holdsRead : Thread → Bool
  | .getMerkleNodes _ _ (.handler _) _ | .setMerkleNodes _ .writeRev
  | .setMerkleNodes _ (.node _ _) | .setMerkleNodes _ (.load _ _ _) => true
  | _ => false

def Thread.holdsCache : Thread → Bool
  | .getMerkleNodes _ _ (.handler _) _ | .setMerkleNodes _ (.load _ _ _) => true
  | _ => false

structure TX where
  stx : Option Scope
  onceDone : Bool
  currentSTH : Option TreeHead
  currentSTHErr : Option Error
  writeRev : Int
  cache : SubtreeCache
  log : List Event

def TX.init (E : Env) : TX := ⟨some E.scope, false, none, none, 0, SubtreeCache.empty, []⟩

@[simps] def TX.emit (tx : TX) (e : Event) : TX := { tx with log := tx.log ++ [e] }

inductive Next
  | moves (th : Thread)
  | panics (p : GoPanic)

def reachesRead (id : NodeID) : Bool :=
  match subtreeKey id with
  | .ok (_, none) => true
  | _ => false

def TX.getSubtree (E : Env) (tx : TX) (rev : Int) (id : NodeID) :
    Except GoPanic (Option SubtreeProto × Option Error) :=
  TrillianSpanner.getSubtree E.unmarshal (tx.stx.map fun _ => E.read) rev id

@[simps] def TX.logRead (tx : TX) (tid : Nat) (rev : Int) (id : NodeID) : TX :=
  { tx with log := tx.log ++ if reachesRead id then [.read tid rev tx.stx] else [] }

@[simps] def TX.resolve (E : Env) (tx : TX) (tid : Nat) : TX :=
  { tx with
    onceDone := true
    currentSTH := (latestSTH E.unmarshalSig E.unmarshalMeta E.heads).1
    currentSTHErr := (latestSTH E.unmarshalSig E.unmarshalMeta E.heads).2
    writeRev := match (latestSTH E.unmarshalSig E.unmarshalMeta E.heads).1 with
      | some h => wrapInt64 (h.TreeRevision + 1)
      | none => tx.writeRev
    log := tx.log ++ [.query tid] }

def TX.getLatestRoot (E : Env) (tx : TX) (tid : Nat) : Except GoPanic TX :=
  if tx.onceDone then .ok tx
  else
    match tx.stx with
    | none => .error .nilDereference
    | some _ => .ok (tx.resolve E tid)

def closeResult : Option Error → Option Error
  | some .transactionClosed => none
  | r => r

@[simps] def TX.release (tx : TX) (tid : Nat) : TX :=
  { tx with
    stx := none
    log := tx.log ++ ((if tx.stx.isSome then [.closed tid] else []) ++ [.returned tid]) }

def closeAt : LockedPc → Thread
  | .done r => .close (.done (closeResult r))
  | pc => .close (.rollback pc)

def stepLocked (E : Env) (tx : TX) (held : Bool) (tid : Nat) (commit : Bool) :
    LockedPc → Option (TX × LockedPc)
  | .lock => if held then none else some (tx, .body)
  | .body =>
    match tx.stx with
    | none => some (tx.emit (.locked tid false), .unlock (some .transactionClosed))
    | some sc =>
      if commit then
        match sc with
        | .readOnly => some ((tx.emit (.locked tid true)).emit (.roClose tid), .unlock none)
        | .readWrite =>
          match storeSubtrees E.marshal E.bufferWrite E.treeID tx.writeRev tx.stx
              (tx.cache.dirtySubtrees.map some) with
          | (ms, err) =>
            some ({ tx with log := tx.log ++ (Event.locked tid true ::
              Event.flush tid tx.cache.dirtySubtrees :: ms.map (Event.buffer tid)) }, .unlock err)
        | .other => some (tx.emit (.locked tid true), .unlock (some .unknownTxType))
      else some (tx.emit (.locked tid true), .unlock none)
  | .unlock r => some (tx.release tid, .done r)
  | .done _ => none

def stepHandler (E : Env) (tx : TX) (tid : Nat) (errFirst : Bool) (rev : Int) (ids : List NodeID)
    (want : List (List UInt8 × NodeID)) (fan : Fanout) : Option (TX × Next) :=
  let recvErr (e : Error) (errc : List Error) : TX × Next :=
    (tx.emit (.returned tid), .moves (.getMerkleNodes rev ids (.done none (some e))
      (some { fan with errc := errc, result := some (none, some e) })))
  let recvSubtree (st : Option SubtreeProto) (c : List (Option SubtreeProto)) : TX × Next :=
    (tx, .moves (.getMerkleNodes rev ids (.handler want) (some { fan with
      c := c, ret := fan.ret ++ st.toList, left := fan.left - 1 })))
  if fan.left = 0 then
    let cache := tx.cache.populate E.layout want fan.ret
    some ({ tx with cache := cache }.emit (.returned tid),
      .moves (.getMerkleNodes rev ids (.done (some (cache.nodes E.layout ids)) none)
        (some { fan with result := some (some fan.ret, none) })))
  else
    match fan.errc, fan.c with
    | e :: errc, [] => some (recvErr e errc)
    | e :: errc, st :: c => some (if errFirst then recvErr e errc else recvSubtree st c)
    | [], st :: c => some (recvSubtree st c)
    | [], [] => none

def stepSet (E : Env) (tx : TX) (writeHeld cacheHeld : Bool) (tid : Nat) (nodes : List Node) :
    SetPc → Option (TX × Next)
  | .rlock =>
    if writeHeld then none
    else
      match tx.stx with
      | none => some ((tx.emit (.checked tid false)).emit (.returned tid),
          .moves (.setMerkleNodes nodes (.done (some .transactionClosed))))
      | some _ => some (tx.emit (.checked tid true), .moves (.setMerkleNodes nodes .writeRev))
  | .writeRev =>
    match tx.getLatestRoot E tid with
    | .error p => some (tx, .panics p)
    | .ok tx' =>
      match tx'.currentSTHErr with
      | some e => some (tx'.emit (.returned tid), .moves (.setMerkleNodes nodes (.done (some e))))
      | none => some (tx', .moves (.setMerkleNodes nodes (.node tx'.writeRev nodes)))
  | .node _ [] => some (tx.emit (.returned tid), .moves (.setMerkleNodes nodes (.done none)))
  | .node wr (n :: rest) =>
    if cacheHeld then none
    else
      match tx.cache.lookup (E.layout.prefixOf n.NodeID) with
      | some _ => some ({ tx with cache := tx.cache.setNode E.layout n }.emit (.setNodeHash tid n),
          .moves (.setMerkleNodes nodes (.node wr rest)))
      | none => some (tx, .moves (.setMerkleNodes nodes (.load wr n rest)))
  | .load wr n rest =>
    let id := E.layout.subtreeID n.NodeID
    let tx' := tx.logRead tid (wrapInt64 (wr - 1)) id
    match tx.getSubtree E (wrapInt64 (wr - 1)) id with
    | .error p => some (tx', .panics p)
    | .ok (_, some e) => some (tx'.emit (.returned tid), .moves (.setMerkleNodes nodes (.done (some e))))
    | .ok (st, none) =>
      let cache := (tx.cache.insert (E.layout.prefixOf n.NodeID) (st.getD (E.layout.empty id))).setNode
        E.layout n
      some ({ tx' with cache := cache }.emit (.setNodeHash tid n),
        .moves (.setMerkleNodes nodes (.node wr rest)))
  | .done _ => none

def stepReadRevision (E : Env) (tx : TX) (tid : Nat) : Option (TX × Next) :=
  match tx.getLatestRoot E tid with
  | .error p => some (tx, .panics p)
  | .ok tx' =>
    match tx'.currentSTHErr, tx'.currentSTH with
    | some e, _ => some (tx', .panics (.value e))
    | none, none => some (tx', .panics .nilDereference)
    | none, some th => some (tx'.emit (.returned tid), .moves (.readRevision (some th.TreeRevision)))

def stepWriteRevision (E : Env) (tx : TX) (tid : Nat) : Option (TX × Next) :=
  match tx.getLatestRoot E tid with
  | .error p => some (tx, .panics p)
  | .ok tx' =>
    match tx'.currentSTHErr with
    | some e => some (tx', .panics (.value e))
    | none => some (tx'.emit (.returned tid), .moves (.writeRevision (some tx'.writeRev)))

def stepThread (E : Env) (tx : TX) (held writeHeld cacheHeld : Bool) (tid : Nat) (errFirst : Bool) :
    Thread → Option (TX × Next)
  | .commit pc => (stepLocked E tx held tid true pc).map fun (tx', pc') => (tx', .moves (.commit pc'))
  | .rollback pc =>
    (stepLocked E tx held tid false pc).map fun (tx', pc') => (tx', .moves (.rollback pc'))
  | .close .isOpen =>
    if writeHeld then none
    else
      match tx.stx with
      | none => some ((tx.emit (.checked tid false)).emit (.returned tid), .moves (.close (.done none)))
      | some _ => some (tx.emit (.checked tid true), .moves (.close (.rollback .lock)))
  | .close (.rollback pc) =>
    (stepLocked E tx held tid false pc).map fun (tx', pc') => (tx', .moves (closeAt pc'))
  | .close (.done _) => none
  | .isOpen none =>
    if writeHeld then none
    else some ((tx.emit (.checked tid tx.stx.isSome)).emit (.returned tid),
      .moves (.isOpen (some tx.stx.isSome)))
  | .isOpen (some _) => none
  | .getMerkleNodes rev ids .rlock fan =>
    if writeHeld then none
    else
      match tx.stx with
      | none => some ((tx.emit (.checked tid false)).emit (.returned tid),
          .moves (.getMerkleNodes rev ids (.done none (some .transactionClosed)) fan))
      | some _ =>
        if cacheHeld then none
        else
          let tx' := (tx.emit (.checked tid true)).emit (.getNodes tid)
          let want := tx.cache.missing E.layout ids
          if want = [] then
            some (tx'.emit (.returned tid),
              .moves (.getMerkleNodes rev ids (.done (some (tx.cache.nodes E.layout ids)) none) fan))
          else
            some (tx', .moves (.getMerkleNodes rev ids (.handler want)
              (some (Fanout.spawn (want.map fun w => w.2)))))
  | .getMerkleNodes rev ids (.handler want) (some fan) => stepHandler E tx tid errFirst rev ids want fan
  | .getMerkleNodes _ _ (.handler _) none => none
  | .getMerkleNodes _ _ (.done _ _) _ => none
  | .setMerkleNodes nodes pc => stepSet E tx writeHeld cacheHeld tid nodes pc
  | .readRevision none => stepReadRevision E tx tid
  | .readRevision (some _) => none
  | .writeRevision none => stepWriteRevision E tx tid
  | .writeRevision (some _) => none

def stepFetch (E : Env) (tx : TX) (tid j : Nat) : Thread → Option (TX × Next)
  | .getMerkleNodes rev ids pc (some fan) =>
    let moves (fan' : Fanout) : Next := .moves (.getMerkleNodes rev ids pc (some fan'))
    match fan.fetches[j]?, fan.ids[j]? with
    | some .start, some id =>
      match tx.getSubtree E rev id with
      | .error p => some (tx.logRead tid rev id, .panics p)
      | .ok (st, err) =>
        some (tx.logRead tid rev id, moves { fan with fetches := fan.fetches.set j (.send st err) })
    | some (.send st (some e)), _ =>
      if fan.errc.length < fan.ids.length then
        some (tx, moves { fan with errc := fan.errc ++ [e], fetches := fan.fetches.set j (.done st (some e)) })
      else none
    | some (.send st none), _ =>
      if fan.c.length < fan.ids.length then
        some (tx, moves { fan with c := fan.c ++ [st], fetches := fan.fetches.set j (.done st none) })
      else none
    | _, _ => none
  | _ => none

structure World where
  tx : TX
  threads : List Thread
  crashed : Option GoPanic

def World.init (E : Env) : World := ⟨TX.init E, [], none⟩

def World.writeHeld (w : World) : Bool := w.threads.any Thread.holdsWrite

def World.held (w : World) : Bool := w.threads.any fun th => th.holdsWrite || th.holdsRead

def World.cacheHeld (w : World) : Bool := w.threads.any Thread.holdsCache

def World.apply (w : World) (tid : Nat) : TX × Next → World
  | (tx, .moves th) => { w with tx := tx, threads := w.threads.set tid th }
  | (tx, .panics p) => { w with tx := tx, crashed := some p }

def step (E : Env) (w : World) : Action → Option World
  | .call c => if w.crashed.isSome then none else some { w with threads := w.threads ++ [c.start] }
  | .step tid errFirst =>
    if w.crashed.isSome then none
    else (w.threads[tid]?.bind (stepThread E w.tx w.held w.writeHeld w.cacheHeld tid errFirst)).map (w.apply tid)
  | .fetch tid j =>
    if w.crashed.isSome then none else (w.threads[tid]?.bind (stepFetch E w.tx tid j)).map (w.apply tid)

inductive Reachable (E : Env) : World → Prop
  | init : Reachable E (World.init E)
  | step {w w' : World} (a : Action) : Reachable E w → step E w a = some w' → Reachable E w'

def run (E : Env) : World → List Action → Option World
  | w, [] => some w
  | w, a :: as => (step E w a).bind (run E · as)

theorem Reachable.run {E : Env} {w w' : World} (hw : Reachable E w) :
    ∀ {as : List Action}, TrillianSpanner.run E w as = some w' → Reachable E w'
  | [], h => by cases h; exact hw
  | a :: as, h => by
    simp only [TrillianSpanner.run, Option.bind_eq_some] at h
    obtain ⟨w₁, h₁, h₂⟩ := h
    exact (hw.step a h₁).run h₂

def exampleEnv (sc : Scope) : Env where
  treeID := 1
  scope := sc
  heads := ⟨[⟨1, 0, 0, .nil, [], 4, []⟩], none⟩
  read key :=
    if key = [1] then ⟨[⟨5, [7, 1]⟩, ⟨3, [6, 1]⟩], none⟩
    else if key = [2] then ⟨[⟨1, []⟩], none⟩
    else ⟨[], none⟩
  unmarshal
    | [] => .error 0
    | h :: p => .ok ⟨.mk p, 8, .mk [h], [], []⟩
  marshal st := .ok (st.RootHash.bytes ++ st.Prefix.bytes)
  bufferWrite _ := none
  unmarshalSig bs := .ok ⟨bs⟩
  unmarshalMeta bs := .ok ⟨"", bs⟩
  layout := ⟨fun n => ⟨.mk (n.Path.bytes.take 1), 8⟩, fun n => n.Path.bytes.take 1,
    fun st _ => some st.RootHash, fun st _ h => { st with RootHash := h },
    fun id => ⟨id.Path, 8, .nil, [], []⟩⟩

end TrillianSpanner
