import TrillianSpanner.TreeTX.Lifecycle

/-! Writes through a `treeTX`. `SetMerkleNodes` holds the read lock from its check to its return,
so a `Commit` flushes either before a call takes the lock, which then finds the transaction
closed, or after it has made all of its `SetNodeHash` updates, each of which leaves its subtree
dirty, and the flush hands over every dirty subtree. The cache is dirtied only after
`getLatestRoot` has succeeded, so `storeSubtrees` writes at one above the resolved head and
the loader reads at the head. -/

namespace TrillianSpanner

def TX.root (tx : TX) : Bool × Option TreeHead × Option Error × Int :=
  (tx.onceDone, tx.currentSTH, tx.currentSTHErr, tx.writeRev)

def Thread.setting : Thread → Bool
  | .setMerkleNodes _ (.node _ _) | .setMerkleNodes _ (.load _ _ _) => true
  | _ => false

theorem Thread.holdsRead_of_setting {th : Thread} (h : th.setting = true) : th.holdsRead = true := by
  cases th with
  | setMerkleNodes _ pc => cases pc <;> simp_all [Thread.setting, Thread.holdsRead]
  | _ => simp [Thread.setting] at h

def Thread.loadRev : Thread → Option Int
  | .setMerkleNodes _ (.load wr _ _) => some (wrapInt64 (wr - 1))
  | _ => none

theorem Thread.setting_of_loadRev {th : Thread} {rev : Int} (h : th.loadRev = some rev) :
    th.setting = true := by
  unfold Thread.loadRev at h
  split at h
  · rfl
  · cases h

def Event.followed : Event → Bool
  | .setNodeHash _ _ | .buffer _ _ | .flush _ _ | .read _ _ _ => true
  | .locked _ _ | .checked _ _ | .closed _ | .roClose _ | .getNodes _ | .query _ | .returned _ => false

structure WriteStep (E : Env) (tx tx' : TX) (th : Thread) (es : List Event) : Prop where
  root : tx'.root = tx.root ∨ tx.onceDone = false ∧ tx'.root = (tx.resolve E 0).root
  cache : tx'.cache = tx.cache ∨
    th.holdsRead = true ∧ tx.cache.Grows tx'.cache ∧ (tx'.cache.dirty ≠ tx.cache.dirty → th.setting = true)
  marks : ∀ t n, .setNodeHash t n ∈ es → th.setting = true ∧ E.layout.prefixOf n.NodeID ∈ tx'.cache.dirty
  buffers : ∀ t m, .buffer t m ∈ es → m.Revision = tx.writeRev ∧ tx.cache.dirtySubtrees ≠ []
  flush : ∀ t sts, .flush t sts ∈ es →
    sts = tx.cache.dirtySubtrees ∧ tx'.cache = tx.cache ∧ ∀ t' n, .setNodeHash t' n ∉ es
  reads : ∀ t rev s, .read t rev s ∈ es → th.loadRev = some rev

variable {E : Env}

theorem WriteStep.of_quiet {tx tx' : TX} {th : Thread} {es : List Event}
    (hroot : tx'.root = tx.root ∨ tx.onceDone = false ∧ tx'.root = (tx.resolve E 0).root)
    (hcache : tx'.cache = tx.cache) (hes : es.filter Event.followed = []) : WriteStep E tx tx' th es :=
  have h : ∀ e ∈ es, e.followed = false := fun e he => by simpa using List.filter_eq_nil_iff.1 hes e he
  ⟨hroot, .inl hcache, fun _ _ he => by simpa [Event.followed] using h _ he,
    fun _ _ he => by simpa [Event.followed] using h _ he,
    fun _ _ he => by simpa [Event.followed] using h _ he,
    fun _ _ _ he => by simpa [Event.followed] using h _ he⟩

theorem storeSubtrees_rows {marshal : SubtreeProto → Except Nat (List UInt8)}
    {bufferWrite : SubtreeDataRow → Option Nat} {treeID writeRev : Int}
    {stx : Option Scope} {sts : List SubtreeProto} {ms : List SubtreeDataRow} {err : Option Error}
    (h : storeSubtrees marshal bufferWrite treeID writeRev stx (sts.map some) = (ms, err)) :
    ∀ m ∈ ms, m.Revision = writeRev ∧ sts ≠ [] := by
  intro m hm
  unfold storeSubtrees at h
  split at h
  · obtain ⟨st, hst, -, hm'⟩ := bufferSubtrees_mem marshal bufferWrite treeID writeRev h m hm
    exact ⟨by rw [hm'], by rintro rfl; simp at hst⟩
  · simp only [Prod.mk.injEq] at h
    simp [← h.1] at hm

theorem ThreadStep.writeStep {h w k b : Bool} {t : Nat} {th : Thread} {tx tx' : TX} {n : Next}
    (hs : ThreadStep E h w k t b th tx tx' n) : WriteStep E tx tx' th (tx'.log.drop tx.log.length) := by
  cases hs
  case handlerReturn =>
    refine ⟨.inl rfl, .inr ⟨rfl, SubtreeCache.grows_populate _ _ _ _, by simp⟩, ?_, ?_, ?_, ?_⟩ <;>
      simp
  case setHit nodes rest n wr st hl =>
    refine ⟨.inl rfl, .inr ⟨rfl, SubtreeCache.grows_setNode _ _ _, fun _ => rfl⟩, ?_, ?_, ?_, ?_⟩ <;>
      simp [Thread.setting, SubtreeCache.setNode_dirty_of_lookup _ hl]
  case load nodes rest n wr st _ =>
    have hl : ((tx.cache.insert (E.layout.prefixOf n.NodeID) (st.getD (E.layout.empty
        (E.layout.subtreeID n.NodeID)))).lookup (E.layout.prefixOf n.NodeID)) =
        some (st.getD (E.layout.empty (E.layout.subtreeID n.NodeID))) := by simp
    refine ⟨.inl rfl, .inr ⟨rfl, (SubtreeCache.grows_insert _ _ _).trans
      (SubtreeCache.grows_setNode _ _ _), fun _ => rfl⟩, ?_, ?_, ?_, ?_⟩ <;>
      simp +contextual [Thread.setting, Thread.loadRev, SubtreeCache.setNode_dirty_of_lookup _ hl]
  case loadPanic | loadError =>
    refine ⟨.inl rfl, .inl rfl, ?_, ?_, ?_, ?_⟩ <;> simp +contextual [Thread.loadRev]
  case commit hl =>
    cases hl
    case readWrite ms err _ _ hst =>
      refine ⟨.inl rfl, .inl rfl, by simp, fun t' m hm => ?_, fun t' sts hf => ?_, by simp⟩
      · have hm' : m ∈ ms ∧ t = t' := by simpa using hm
        exact storeSubtrees_rows hst m hm'.1
      · simp only [List.drop_left', List.mem_cons, Event.flush.injEq, List.mem_map] at hf ⊢
        simp_all
    all_goals exact .of_quiet (.inl rfl) rfl (by simp [Event.followed, List.filter_append])
  all_goals
    (try cases ‹LockedStep _ _ _ _ _ _ _ _›) <;> (try contradiction) <;>
    (try rcases TX.getLatestRoot_ok ‹_› with ⟨-, rfl⟩ | ⟨hdone, -, rfl⟩) <;>
    refine .of_quiet ?_ rfl ?_ <;> simp [TX.root, Event.followed, List.filter_append, *]

def SetProgress (tx : TX) (t : Nat) (nodes : List Node) : SetPc → Prop
  | .rlock | .writeRev | .done (some _) => True
  | .node wr rest => tx.onceDone = true ∧ tx.currentSTHErr = none ∧ wr = tx.writeRev ∧
    ∃ pre, nodes = pre ++ rest ∧ ∀ n ∈ pre, .setNodeHash t n ∈ tx.log
  | .load wr n rest => tx.onceDone = true ∧ tx.currentSTHErr = none ∧ wr = tx.writeRev ∧
    ∃ pre, nodes = pre ++ n :: rest ∧ ∀ n ∈ pre, .setNodeHash t n ∈ tx.log
  | .done none => ∀ n ∈ nodes, .setNodeHash t n ∈ tx.log

def LoaderReads (E : Env) (log : List Event) (t : Nat) : Prop :=
  ∀ rev s, .read t rev s ∈ log → ∃ th, latestSTH E.unmarshalSig E.unmarshalMeta E.heads = (some th, none) ∧
    rev = wrapInt64 (wrapInt64 (th.TreeRevision + 1) - 1)

structure WriteInv (E : Env) (tx : TX) (ths : List Thread) : Prop where
  once : tx.onceDone = true → (tx.currentSTH, tx.currentSTHErr) = latestSTH E.unmarshalSig E.unmarshalMeta E.heads ∧
    ∀ th, tx.currentSTH = some th → tx.writeRev = wrapInt64 (th.TreeRevision + 1)
  cached : ∀ px ∈ tx.cache.dirty, (tx.cache.lookup px).isSome
  resolved : tx.cache.dirty ≠ [] → tx.onceDone = true ∧ tx.currentSTHErr = none
  marked : ∀ t n, .setNodeHash t n ∈ tx.log → E.layout.prefixOf n.NodeID ∈ tx.cache.dirty
  flushed : ∀ t sts, .flush t sts ∈ tx.log → sts = tx.cache.dirtySubtrees
  afterFlush : ∀ pre t sts post, tx.log = pre ++ .flush t sts :: post → ∀ t' n, .setNodeHash t' n ∉ post
  buffers : ∀ t m, .buffer t m ∈ tx.log → ∃ th, latestSTH E.unmarshalSig E.unmarshalMeta E.heads = (some th, none) ∧
    m.Revision = wrapInt64 (th.TreeRevision + 1)
  sets : ∀ t nodes pc, ths[t]? = some (.setMerkleNodes nodes pc) →
    SetProgress tx t nodes pc ∧ LoaderReads E tx.log t

section Preservation

variable {tx tx' : TX} {t : Nat}

theorem TX.root_eq_iff {tx tx' : TX} : tx'.root = tx.root ↔ tx'.onceDone = tx.onceDone ∧
    tx'.currentSTH = tx.currentSTH ∧ tx'.currentSTHErr = tx.currentSTHErr ∧ tx'.writeRev = tx.writeRev := by
  simp [TX.root]

theorem WriteStep.root_of_done {th : Thread} {es : List Event} (ws : WriteStep E tx tx' th es)
    (h : tx.onceDone = true) : tx'.root = tx.root :=
  ws.root.resolve_right fun ⟨h', _⟩ => by simp [h] at h'

theorem SetProgress.mono {nodes : List Node} {pc : SetPc} (hp : SetProgress tx t nodes pc)
    (hlog : ∀ e ∈ tx.log, e ∈ tx'.log) (hroot : tx.onceDone = true → tx'.root = tx.root) :
    SetProgress tx' t nodes pc := by
  rcases pc with _ | _ | ⟨wr, rest⟩ | ⟨wr, n, rest⟩ | ⟨_ | e⟩
  · trivial
  · trivial
  · obtain ⟨h1, h2, h3, pre, h4, h5⟩ := hp
    obtain ⟨h1', -, h2', h3'⟩ := TX.root_eq_iff.1 (hroot h1)
    exact ⟨h1'.trans h1, h2'.trans h2, h3.trans h3'.symm, pre, h4, fun n hn => hlog _ (h5 n hn)⟩
  · obtain ⟨h1, h2, h3, pre, h4, h5⟩ := hp
    obtain ⟨h1', -, h2', h3'⟩ := TX.root_eq_iff.1 (hroot h1)
    exact ⟨h1'.trans h1, h2'.trans h2, h3.trans h3'.symm, pre, h4, fun n hn => hlog _ (h5 n hn)⟩
  · exact fun n hn => hlog _ (hp n hn)
  · trivial

theorem SetProgress.pass {nodes rest : List Node} {n : Node} {wr : Int}
    (hp : tx.onceDone = true ∧ tx.currentSTHErr = none ∧ wr = tx.writeRev ∧
      ∃ pre, nodes = pre ++ n :: rest ∧ ∀ m ∈ pre, .setNodeHash t m ∈ tx.log)
    (hlog : ∀ e ∈ tx.log, e ∈ tx'.log) (hroot : tx'.root = tx.root) (hn : .setNodeHash t n ∈ tx'.log) :
    SetProgress tx' t nodes (.node wr rest) := by
  obtain ⟨h1, h2, h3, pre, rfl, h5⟩ := hp
  obtain ⟨h1', -, h2', h3'⟩ := TX.root_eq_iff.1 hroot
  refine ⟨h1'.trans h1, h2'.trans h2, h3.trans h3'.symm, pre ++ [n], by simp, fun m hm => ?_⟩
  rcases List.mem_append.1 hm with hm | hm
  · exact hlog _ (h5 m hm)
  · rwa [List.mem_singleton.1 hm]

def Thread.setNodes : Thread → Option (List Node)
  | .setMerkleNodes nodes _ => some nodes
  | _ => none

theorem Thread.eq_of_setNodes {th : Thread} {nodes : List Node} (h : th.setNodes = some nodes) :
    ∃ pc, th = .setMerkleNodes nodes pc := by
  unfold Thread.setNodes at h
  split at h
  · cases h; exact ⟨_, rfl⟩
  · cases h

theorem ThreadStep.setNodes {h w k b : Bool} {th : Thread} {n : Next}
    (hs : ThreadStep E h w k t b th tx tx' n) : (n.after th).setNodes = th.setNodes := by
  cases hs <;> rfl

theorem ThreadStep.setProgress {h w k b : Bool} {nodes : List Node} {pc : SetPc} {n : Next}
    (hs : ThreadStep E h w k t b (.setMerkleNodes nodes pc) tx tx' n) (hp : SetProgress tx t nodes pc)
    (hlog : ∀ e ∈ tx.log, e ∈ tx'.log) :
    ∃ pc', n.after (.setMerkleNodes nodes pc) = .setMerkleNodes nodes pc' ∧ SetProgress tx' t nodes pc' := by
  cases hs
  case root herr hr =>
    refine ⟨_, rfl, ?_, herr, rfl, [], rfl, by simp⟩
    rcases TX.getLatestRoot_ok hr with ⟨h1, rfl⟩ | ⟨-, -, rfl⟩
    · exact h1
    · rfl
  case setReturn =>
    obtain ⟨-, -, -, pre, hpre, h5⟩ := hp
    exact ⟨_, rfl, fun n hn => hlog _ (h5 n (by simpa [hpre] using hn))⟩
  case setHit | load => exact ⟨_, rfl, SetProgress.pass hp hlog rfl (by simp)⟩
  case setMiss => exact ⟨_, rfl, hp⟩
  case loadPanic => exact ⟨_, rfl, hp.mono hlog fun _ => rfl⟩
  all_goals exact ⟨_, rfl, trivial⟩

section Inv

variable {ths : List Thread} (hwi : WriteInv E tx ths)
include hwi

theorem WriteInv.head (h1 : tx.onceDone = true) (h2 : tx.currentSTHErr = none) :
    ∃ th, latestSTH E.unmarshalSig E.unmarshalMeta E.heads = (some th, none) ∧ tx.currentSTH = some th ∧
      tx.writeRev = wrapInt64 (th.TreeRevision + 1) := by
  obtain ⟨hl, hw⟩ := hwi.once h1
  have h2' : (latestSTH E.unmarshalSig E.unmarshalMeta E.heads).2 = none := by rw [← hl]; exact h2
  obtain ⟨th, hth⟩ := Option.isSome_iff_exists.1 ((latestSTH_head_iff _ _ _).2 h2')
  have hc : tx.currentSTH = some th := by rw [← hth, ← hl]
  exact ⟨th, Prod.ext hth h2', hc, hw th hc⟩

theorem WriteInv.setting {th : Thread} (hth : ths[t]? = some th) (hs : th.setting = true) :
    tx.onceDone = true ∧ tx.currentSTHErr = none ∧
      ∀ rev, th.loadRev = some rev → rev = wrapInt64 (tx.writeRev - 1) := by
  rcases th with _ | _ | _ | _ | _ | ⟨nodes, _ | _ | ⟨wr, rest⟩ | ⟨wr, n, rest⟩ | r⟩ | _ | _ <;>
    simp [Thread.setting] at hs
  · obtain ⟨h1, h2, -⟩ := (hwi.sets t nodes _ hth).1
    exact ⟨h1, h2, by simp [Thread.loadRev]⟩
  · obtain ⟨h1, h2, rfl, -⟩ := (hwi.sets t nodes _ hth).1
    exact ⟨h1, h2, by simp [Thread.loadRev]⟩

end Inv

theorem LockInv.no_readers {w : World} (hi : LockInv E w) (h : lockedLog w.tx.log ≠ [])
    {i : Nat} {th : Thread} (hth : w.threads[i]? = some th) : th.holdsRead = false := by
  rcases hi.phase with ⟨-, h2, -⟩ | ⟨t₀, th₀, -, -, -, h4, h5⟩ | ⟨-, -, -, -, -, -, h6⟩
  · exact absurd h2 h
  · exact hi.not_reader h4 (Thread.holdsWrite_of_unlocking h5) hth
  · exact h6 i th hth

theorem WriteInv.thread_step {w : World} {th : Thread} (hwi : WriteInv E w.tx w.threads)
    (hi : LockInv E w) (hl : LifeInv E w.tx.log w.threads) (hth : w.threads[t]? = some th)
    {b : Bool} {n : Next} (hts : ThreadStep E w.held w.writeHeld w.cacheHeld t b th w.tx tx' n) :
    WriteInv E tx' (w.threads.set t (n.after th)) := by
  obtain ⟨es, hes, htid⟩ := hts.log_extends
  have ws : WriteStep E w.tx tx' th es := by simpa [hes] using hts.writeStep
  have hkeep := ws.root_of_done
  have hlog : ∀ e ∈ w.tx.log, e ∈ tx'.log := fun e he => by simp [hes, he]
  have hnr : ∀ c sts, .flush c sts ∈ w.tx.log → th.holdsRead = false := fun c sts hf => by
    obtain ⟨-, ⟨rest, hr⟩, -⟩ := hl.ends _ (List.mem_filter.2 ⟨hf, rfl⟩)
    exact hi.no_readers (by simp [hr]) hth
  have hdirty : ∀ px ∈ w.tx.cache.dirty, px ∈ tx'.cache.dirty := by
    rcases ws.cache with hc | ⟨-, hg, -⟩
    · rw [hc]; exact fun _ h => h
    · exact hg.dirty
  refine ⟨fun h1 => ?_, fun px hpx => ?_, fun hne => ?_, fun c m hm => ?_, fun c sts hf => ?_,
    fun pre c sts post hpost c' m hm => ?_, fun c m hm => ?_, fun i nodes pc hi' => ?_⟩
  · rcases ws.root with hr | ⟨-, hr⟩
    · obtain ⟨e1, e2, e3, e4⟩ := TX.root_eq_iff.1 hr
      rw [e2, e3, e4]
      exact hwi.once (e1 ▸ h1)
    · simp only [TX.root, TX.resolve, Prod.mk.injEq] at hr
      obtain ⟨-, e2, e3, e4⟩ := hr
      refine ⟨by rw [e2, e3], fun th' hth' => ?_⟩
      rw [e2] at hth'
      rw [e4, hth']
  · rcases ws.cache with hc | ⟨-, hg, -⟩
    · rw [hc] at hpx ⊢
      exact hwi.cached px hpx
    · exact (hg.newDirty px hpx).elim (fun h => hg.held px (hwi.cached px h)) id
  · have h : w.tx.onceDone = true ∧ w.tx.currentSTHErr = none := by
      rcases ws.cache with hc | ⟨-, -, hset⟩
      · exact hwi.resolved (hc ▸ hne)
      · by_cases hd : tx'.cache.dirty = w.tx.cache.dirty
        · exact hwi.resolved (hd ▸ hne)
        · exact (hwi.setting hth (hset hd)).imp_right And.left
    obtain ⟨e1, -, e3, -⟩ := TX.root_eq_iff.1 (hkeep h.1)
    exact ⟨e1.trans h.1, e3.trans h.2⟩
  · rw [hes, List.mem_append] at hm
    exact hm.elim (fun hm => hdirty _ (hwi.marked c m hm)) fun hm => (ws.marks c m hm).2
  · rw [hes, List.mem_append] at hf
    rcases hf with hf | hf
    · rcases ws.cache with hc | ⟨h, -⟩
      · rw [hc]; exact hwi.flushed c sts hf
      · simp [hnr c sts hf] at h
    · obtain ⟨h1, h2, -⟩ := ws.flush c sts hf
      rw [h2]; exact h1
  · rw [hes] at hpost
    rcases append_eq_cons_cases hpost with ⟨post', hold, rfl⟩ | ⟨hf, s, rfl⟩
    · rcases List.mem_append.1 hm with hm | hm
      · exact hwi.afterFlush pre c sts post' hold c' m hm
      · have := hnr c sts (by simp [hold])
        simp [Thread.holdsRead_of_setting (ws.marks c' m hm).1] at this
    · exact (ws.flush c sts hf).2.2 c' m (List.mem_append_right s hm)
  · rw [hes, List.mem_append] at hm
    rcases hm with hm | hm
    · exact hwi.buffers c m hm
    · obtain ⟨hrev, hne⟩ := ws.buffers c m hm
      have hd : w.tx.cache.dirty ≠ [] := fun h => hne (by simp [SubtreeCache.dirtySubtrees, h])
      obtain ⟨th', hlat, -, hw⟩ := hwi.head (hwi.resolved hd).1 (hwi.resolved hd).2
      exact ⟨th', hlat, hrev.trans hw⟩
  · have hreads : ∀ rev s, .read i rev s ∈ tx'.log → LoaderReads E w.tx.log i →
        (.read i rev s ∈ es → ∃ th', latestSTH E.unmarshalSig E.unmarshalMeta E.heads = (some th', none) ∧
          rev = wrapInt64 (wrapInt64 (th'.TreeRevision + 1) - 1)) →
        ∃ th', latestSTH E.unmarshalSig E.unmarshalMeta E.heads = (some th', none) ∧
          rev = wrapInt64 (wrapInt64 (th'.TreeRevision + 1) - 1) := fun rev s h hr hnew => by
      rw [hes, List.mem_append] at h
      exact h.elim (hr rev s) hnew
    rcases getElem?_set_of hi' with ⟨rfl, hth'⟩ | ⟨hne, hi'⟩
    · obtain ⟨pc₀, rfl⟩ := Thread.eq_of_setNodes (by rw [← hts.setNodes, ← hth']; rfl)
      obtain ⟨hp, hr⟩ := hwi.sets i nodes pc₀ hth
      obtain ⟨pc', hpc', hp'⟩ := hts.setProgress hp hlog
      rw [hpc', Thread.setMerkleNodes.injEq] at hth'
      refine ⟨hth'.2 ▸ hp', fun rev s h => hreads rev s h hr fun hnew => ?_⟩
      have hload := ws.reads i rev s hnew
      obtain ⟨h1, h2, hrev⟩ := hwi.setting hth (Thread.setting_of_loadRev hload)
      obtain ⟨th', hlat, -, hw⟩ := hwi.head h1 h2
      exact ⟨th', hlat, by rw [hrev rev hload, hw]⟩
    · obtain ⟨hp, hr⟩ := hwi.sets i nodes pc hi'
      exact ⟨hp.mono hlog hkeep, fun rev s h => hreads rev s h hr fun hnew =>
        absurd (htid _ hnew) hne⟩

theorem WriteInv.fetch_step {w : World} {th : Thread} (hwi : WriteInv E w.tx w.threads)
    (hth : w.threads[t]? = some th) {j : Nat} {n : Next} (hfs : FetchStep E t j th w.tx tx' n) :
    WriteInv E tx' (w.threads.set t (n.after th)) := by
  obtain ⟨htx, -⟩ := hfs.effects
  obtain ⟨es, hes, htid, -, -, rev, ids, pc, f, f', rfl, hafter⟩ := hfs.lifeEvents
  have hsame : tx'.root = w.tx.root ∧ tx'.cache = w.tx.cache := by
    rcases htx with rfl | ⟨_, _, rfl⟩ <;> exact ⟨rfl, rfl⟩
  have hes' : ∀ e ∈ es, ∃ rev s, e = .read t rev s := by
    rcases htx with rfl | ⟨rev', id, rfl⟩
    · simp only [List.self_eq_append_right] at hes
      simp [hes]
    · simp only [TX.logRead_log, List.append_cancel_left_eq] at hes
      subst hes
      split <;> simp
  obtain ⟨e1, e2, e3, e4⟩ := TX.root_eq_iff.1 hsame.1
  have hlog : ∀ e ∈ w.tx.log, e ∈ tx'.log := fun e he => by simp [hes, he]
  have hno : ∀ t' m, .setNodeHash t' m ∉ es := fun t' m h => by
    obtain ⟨_, _, h⟩ := hes' _ h; cases h
  rw [hafter]
  refine ⟨fun h1 => ?_, fun px hpx => ?_, fun hne => ?_, fun c m hm => ?_, fun c sts hf => ?_,
    fun pre c sts post hpost c' m hm => ?_, fun c m hm => ?_, fun i nodes pc' hi' => ?_⟩
  · rw [e2, e3, e4]; exact hwi.once (e1 ▸ h1)
  · rw [hsame.2] at hpx ⊢; exact hwi.cached px hpx
  · rw [hsame.2] at hne; rw [e1, e3]; exact hwi.resolved hne
  · rw [hes, List.mem_append] at hm
    exact hsame.2 ▸ hm.elim (hwi.marked c m) fun hm => absurd hm (hno c m)
  · rw [hes, List.mem_append] at hf
    rcases hf with hf | hf
    · rw [hsame.2]; exact hwi.flushed c sts hf
    · obtain ⟨_, _, h⟩ := hes' _ hf; cases h
  · rw [hes] at hpost
    rcases append_eq_cons_cases hpost with ⟨post', hold, rfl⟩ | ⟨hf, -⟩
    · exact (List.mem_append.1 hm).elim (hwi.afterFlush pre c sts post' hold c' m) (hno c' m)
    · obtain ⟨_, _, h⟩ := hes' _ hf; cases h
  · rw [hes, List.mem_append] at hm
    exact hm.elim (hwi.buffers c m) fun hm => by obtain ⟨_, _, h⟩ := hes' _ hm; cases h
  · rcases getElem?_set_of hi' with ⟨-, h⟩ | ⟨hne, hi'⟩
    · cases h
    · obtain ⟨hp, hr⟩ := hwi.sets i nodes pc' hi'
      refine ⟨hp.mono hlog fun _ => hsame.1, fun rev s h => ?_⟩
      rw [hes, List.mem_append] at h
      exact h.elim (hr rev s) fun h => absurd (htid _ h) hne

theorem WriteInv.call_step {tx : TX} {ths : List Thread} (hwi : WriteInv E tx ths)
    (htids : ∀ e ∈ tx.log, e.tid < ths.length) (c : Call) : WriteInv E tx (ths ++ [c.start]) := by
  refine ⟨hwi.once, hwi.cached, hwi.resolved, hwi.marked, hwi.flushed, hwi.afterFlush, hwi.buffers,
    fun i nodes pc hi => ?_⟩
  rcases getElem?_append_singleton hi with hi | ⟨rfl, h⟩
  · exact hwi.sets i nodes pc hi
  · cases c <;> cases h
    exact ⟨trivial, fun rev s h => absurd (htids _ h) (lt_irrefl _)⟩

theorem WriteInv.init : WriteInv E (TX.init E) [] :=
  ⟨fun h => by simp [TX.init] at h, fun _ h => by simp [TX.init, SubtreeCache.empty] at h,
    fun h => by simp [TX.init, SubtreeCache.empty] at h, fun _ _ h => by simp [TX.init] at h,
    fun _ _ h => by simp [TX.init] at h, fun _ _ _ _ h => by simp [TX.init] at h,
    fun _ _ h => by simp [TX.init] at h, fun _ _ _ h => by simp at h⟩

end Preservation

theorem Reachable.writeInv {w : World} (hw : Reachable E w) : WriteInv E w.tx w.threads := by
  induction hw with
  | init => exact WriteInv.init
  | @step w₀ w₁ a hw hs ih =>
    rcases step_cases hs with ⟨c, rfl⟩ | ⟨t, b, th, tx', n, hth, hts, rfl⟩ |
      ⟨t, j, th, tx', n, hth, hfs, rfl⟩
    · exact ih.call_step hw.lockInv.tids c
    · rw [World.apply_tx, World.apply_threads hth]
      exact ih.thread_step hw.lockInv hw.lifeInv hth hts
    · rw [World.apply_tx, World.apply_threads hth]
      exact ih.fetch_step hth hfs

/-- The writes of a `treeTX` land one above the head it resolved, in every reachable world: the
cache is dirty only once `getLatestRoot` has run and returned no error, every insert
`storeSubtrees` buffers is at the head's `TreeRevision + 1` in int64, and every read of a
`SetMerkleNodes` loader is at the head's `TreeRevision`. -/
theorem writes_land_above_head {w : World} (hw : Reachable E w)
    (hrev : ∀ r ∈ E.heads.rows, IsInt64 r.TreeRevision) :
    (w.tx.onceDone = true → (w.tx.currentSTH, w.tx.currentSTHErr) = latestSTH E.unmarshalSig E.unmarshalMeta E.heads) ∧
    (w.tx.cache.dirty ≠ [] → w.tx.onceDone = true ∧ w.tx.currentSTHErr = none) ∧
    (∀ (t : Nat) (m : SubtreeDataRow), .buffer t m ∈ w.tx.log →
      ∃ th, latestSTH E.unmarshalSig E.unmarshalMeta E.heads = (some th, none) ∧
        m.Revision = wrapInt64 (th.TreeRevision + 1)) ∧
    ∀ (t : Nat) (nodes : List Node) (pc : SetPc) (rev : Int) (s : Option Scope),
      w.threads[t]? = some (.setMerkleNodes nodes pc) → .read t rev s ∈ w.tx.log →
      ∃ th, latestSTH E.unmarshalSig E.unmarshalMeta E.heads = (some th, none) ∧ rev = th.TreeRevision := by
  have hwi := hw.writeInv
  refine ⟨fun h => (hwi.once h).1, hwi.resolved, hwi.buffers, fun t nodes pc rev s hth hr => ?_⟩
  obtain ⟨th, hlat, rfl⟩ := (hwi.sets t nodes pc hth).2 rev s hr
  obtain ⟨r, hr, hrow⟩ := latestSTH_row E.unmarshalSig E.unmarshalMeta (congrArg Prod.fst hlat)
  exact ⟨th, hlat, wrapInt64_succ_pred (hrow ▸ hrev r hr)⟩

/-- The `Commit` of a read-write transaction buffers its subtree at revision 5, one above the head
at 4, and the loader of the `SetMerkleNodes` before it read at 4. -/
theorem writes_land_above_head_example :
    ∃ w, Reachable (exampleEnv .readWrite) w ∧
      w.threads[0]? = some (.setMerkleNodes [⟨⟨.mk [1], 8⟩, .mk [9]⟩] (.done none)) ∧
      .read 0 4 (some .readWrite) ∈ w.tx.log ∧ .buffer 1 ⟨1, .mk [1], 5, [9, 1]⟩ ∈ w.tx.log ∧
      ∃ th, latestSTH (exampleEnv .readWrite).unmarshalSig (exampleEnv .readWrite).unmarshalMeta (exampleEnv .readWrite).heads =
        (some th, none) ∧ (4 : Int) = th.TreeRevision := by
  have hw := Reachable.run .init (Option.some_get (show (run (exampleEnv .readWrite)
    (World.init (exampleEnv .readWrite)) [.call (.setMerkleNodes [⟨⟨.mk [1], 8⟩, .mk [9]⟩]),
      .step 0 false, .step 0 false, .step 0 false, .step 0 false, .step 0 false, .call .commit,
      .step 1 false, .step 1 false, .step 1 false]).isSome by decide)).symm
  refine ⟨_, hw, ?hth, ?hmem, ?hbuf, (writes_land_above_head hw ?hrev).2.2.2 0 _ _ 4 _ ?hth ?hmem⟩
  case hth => decide
  case hmem => decide
  case hbuf => decide
  case hrev => simp [exampleEnv, IsInt64]

/-- On a read-only scope `SetMerkleNodes` returns nil and dirties the cache, and the `Commit`
after it closes the scope and returns nil without flushing: the write is lost. -/
theorem readOnly_setMerkleNodes_write_dropped :
    ∃ w, Reachable (exampleEnv .readOnly) w ∧
      w.threads = [.setMerkleNodes [⟨⟨.mk [1], 8⟩, .mk [9]⟩] (.done none), .commit (.done none)] ∧
      w.tx.cache.dirty = [[1]] ∧ endsLog w.tx.log = [.roClose 1] :=
  ⟨_, Reachable.run .init (Option.some_get (show (run (exampleEnv .readOnly)
    (World.init (exampleEnv .readOnly)) [.call (.setMerkleNodes [⟨⟨.mk [1], 8⟩, .mk [9]⟩]),
      .step 0 false, .step 0 false, .step 0 false, .step 0 false, .step 0 false, .call .commit,
      .step 1 false, .step 1 false, .step 1 false]).isSome by decide)).symm,
    by decide, by decide, by decide⟩

def Event.setBy (t : Nat) : Event → Option Node
  | .setNodeHash t' n => if t' = t then some n else none
  | .locked _ _ | .checked _ _ | .closed _ | .roClose _ | .flush _ _ | .buffer _ _ | .getNodes _
  | .read _ _ _ | .query _ | .returned _ => none

def setLog (log : List Event) (t : Nat) : List Node := log.filterMap (Event.setBy t)

@[simp] theorem setLog_append (l l' : List Event) (t : Nat) :
    setLog (l ++ l') t = setLog l t ++ setLog l' t := List.filterMap_append _ _ _

@[simp] theorem setLog_nil (t : Nat) : setLog [] t = [] := rfl

@[simp] theorem setLog_cons (e : Event) (l : List Event) (t : Nat) :
    setLog (e :: l) t = (e.setBy t).toList ++ setLog l t := by
  cases h : e.setBy t <;> simp [setLog, h]

@[simp] theorem setLog_read_ite (c : Prop) [Decidable c] (t t' : Nat) (rev : Int) (s : Option Scope) :
    setLog (if c then [.read t' rev s] else []) t = [] := by
  split <;> rfl

theorem setLog_of_tids {es : List Event} {t : Nat} (h : ∀ e ∈ es, e.tid ≠ t) : setLog es t = [] :=
  List.filterMap_eq_nil_iff.2 fun e he => by
    cases e <;> simp only [Event.setBy]
    split
    · exact absurd (by simpa [Event.tid] using ‹_ = t›) (h _ he)
    · rfl

theorem mem_setLog {log : List Event} {t : Nat} {n : Node} (h : n ∈ setLog log t) :
    .setNodeHash t n ∈ log := by
  obtain ⟨e, he, hn⟩ := List.mem_filterMap.1 h
  cases e <;> simp only [Event.setBy, reduceCtorEq] at hn
  split at hn
  · cases hn; subst_vars; exact he
  · cases hn

def SetDone (set nodes : List Node) : SetPc → Prop
  | .rlock | .writeRev => set = []
  | .node _ rest => set ++ rest = nodes
  | .load _ n rest => set ++ n :: rest = nodes
  | .done none => set = nodes
  | .done (some _) => set = [] ∨ ∃ n rest, set ++ n :: rest = nodes

section SetLog

variable {h w k b : Bool} {t : Nat} {tx tx' : TX} {n : Next}

theorem ThreadStep.setDone {nodes : List Node} {pc : SetPc}
    (hs : ThreadStep E h w k t b (.setMerkleNodes nodes pc) tx tx' n)
    (hd : SetDone (setLog tx.log t) nodes pc) :
    ∃ pc', n.after (.setMerkleNodes nodes pc) = .setMerkleNodes nodes pc' ∧
      SetDone (setLog tx'.log t) nodes pc' := by
  cases hs
  case loadError => exact ⟨_, rfl, .inr ⟨_, _, by simpa using hd⟩⟩
  all_goals
    refine ⟨_, rfl, ?_⟩
    (try rcases TX.getLatestRoot_ok ‹_› with ⟨-, rfl⟩ | ⟨-, -, rfl⟩) <;>
      simp_all [SetDone, Event.setBy]

theorem ThreadStep.not_set {th : Thread} (hs : ThreadStep E h w k t b th tx tx' n)
    (hth : ∀ nodes pc, th ≠ .setMerkleNodes nodes pc) :
    setLog tx'.log t = setLog tx.log t ∧ ∀ nodes pc, n.after th ≠ .setMerkleNodes nodes pc := by
  obtain ⟨es, hes, -⟩ := hs.log_extends
  have hmarks := hs.writeStep.marks
  rw [hes, List.drop_left] at hmarks
  refine ⟨?_, fun nodes pc => ?_⟩
  · rw [hes, setLog_append, List.append_right_eq_self]
    refine List.filterMap_eq_nil_iff.2 fun e he => ?_
    cases e <;> simp only [Event.setBy]
    split
    · subst_vars
      obtain ⟨hset, -⟩ := hmarks _ _ he
      cases th <;> simp_all [Thread.setting]
    · rfl
  · cases hs <;> first | exact absurd rfl (hth _ _) | nofun

end SetLog

def SetLogInv (log : List Event) (ths : List Thread) : Prop :=
  ∀ t, (∀ nodes pc, ths[t]? = some (.setMerkleNodes nodes pc) → SetDone (setLog log t) nodes pc) ∧
    ((∀ nodes pc, ths[t]? ≠ some (.setMerkleNodes nodes pc)) → setLog log t = [])

theorem Reachable.setLogInv {w : World} (hw : Reachable E w) : SetLogInv w.tx.log w.threads := by
  induction hw with
  | init => intro t; simp [World.init, TX.init]
  | @step w₀ w₁ a hw hs ih =>
    rcases step_cases hs with ⟨c, rfl⟩ | ⟨t₀, b, th, tx', n, hth, hts, rfl⟩ |
      ⟨t₀, j, th, tx', n, hth, hfs, rfl⟩
    · intro t
      rcases Nat.lt_or_ge t w₀.threads.length with ht | ht
      · simpa [List.getElem?_append_left ht] using ih t
      · have hnone := (ih t).2 fun nodes pc h => by simp [List.getElem?_eq_none ht] at h
        refine ⟨fun nodes pc hi => ?_, fun _ => hnone⟩
        rcases getElem?_append_singleton hi with hi | ⟨-, hc⟩
        · simp [List.getElem?_eq_none ht] at hi
        · cases c <;> cases hc
          exact hnone
    · obtain ⟨es, hes, htid⟩ := hts.log_extends
      have hlen := (List.getElem?_eq_some_iff.1 hth).1
      rw [World.apply_tx, World.apply_threads hth]
      intro t
      by_cases ht : t = t₀
      · subst ht
        by_cases hset : ∃ nodes pc, th = .setMerkleNodes nodes pc
        · obtain ⟨nodes, pc, rfl⟩ := hset
          obtain ⟨pc', hafter, hd⟩ := hts.setDone ((ih t).1 nodes pc hth)
          have hi : (w₀.threads.set t (n.after (.setMerkleNodes nodes pc)))[t]? =
              some (.setMerkleNodes nodes pc') := by simp [hlen, hafter]
          refine ⟨fun nodes' pc'' h => ?_, fun h => absurd hi (h _ _)⟩
          rw [hi] at h
          cases h
          exact hd
        · push_neg at hset
          obtain ⟨hlog, hnot⟩ := hts.not_set hset
          have hi : (w₀.threads.set t (n.after th))[t]? = some (n.after th) := by simp [hlen]
          refine ⟨fun nodes pc h => absurd (Option.some.inj (hi.symm.trans h)) (hnot nodes pc),
            fun _ => ?_⟩
          rw [hlog]
          exact (ih t).2 fun nodes pc h => hset nodes pc (Option.some.inj (hth.symm.trans h))
      · have hlog : setLog tx'.log t = setLog w₀.tx.log t := by
          rw [hes, setLog_append, setLog_of_tids fun e he h => ht (h.symm.trans (htid e he)),
            List.append_nil]
        simp only [List.getElem?_set_ne (Ne.symm ht), hlog]
        exact ih t
    · obtain ⟨_, _, _, _, _, rev, ids, pc, f, f', rfl, hafter⟩ := hfs.lifeEvents
      have hlog : ∀ t, setLog tx'.log t = setLog w₀.tx.log t := fun t => by
        rcases hfs.effects.1 with rfl | ⟨rev, id, rfl⟩
        · rfl
        · simp
      rw [World.apply_tx, World.apply_threads hth, hafter]
      intro t
      rw [hlog, List.getElem?_set]
      split
      · subst_vars
        exact ⟨fun _ _ h => (by split at h <;> cases h),
          fun _ => (ih _).2 fun nodes pc h => by rw [hth] at h; cases h⟩
      · exact ih t

theorem SetDone.isPrefix {set nodes : List Node} {pc : SetPc} (h : SetDone set nodes pc) :
    set <+: nodes := by
  cases pc with
  | rlock | writeRev => exact (show set = [] from h) ▸ List.nil_prefix
  | node _ rest => exact ⟨rest, h⟩
  | load _ n rest => exact ⟨n :: rest, h⟩
  | done r =>
    cases r with
    | none => exact (show set = nodes from h) ▸ List.prefix_refl _
    | some e =>
      rcases h with h | ⟨n, rest, h⟩
      · exact h ▸ List.nil_prefix
      · exact ⟨_, h⟩

/-- `SetMerkleNodes` is not atomic. Over every run, each call hands `SetNodeHash` a prefix of
its nodes, in order, each once. A call that returned nil has handed all of them. A call that
returned an error has handed none (it failed before its loop), or exactly those before one node
(whose loader failed), and those updates stay. Every node handed over lies in a subtree the cache
holds dirty, which the next `Commit` flushes. -/
theorem setMerkleNodes_sets_in_order {w : World} (hw : Reachable E w) {t : Nat} {nodes : List Node}
    {pc : SetPc} (hth : w.threads[t]? = some (.setMerkleNodes nodes pc)) :
    setLog w.tx.log t <+: nodes ∧
    (pc = .done none → setLog w.tx.log t = nodes) ∧
    (∀ e, pc = .done (some e) →
      setLog w.tx.log t = [] ∨ ∃ n rest, nodes = setLog w.tx.log t ++ n :: rest) ∧
    ∀ n ∈ setLog w.tx.log t, E.layout.prefixOf n.NodeID ∈ w.tx.cache.dirty := by
  have hd := (hw.setLogInv t).1 nodes pc hth
  refine ⟨hd.isPrefix, fun h => ?_, fun e h => ?_, fun n hn => hw.writeInv.marked t n (mem_setLog hn)⟩
  · subst h
    exact hd
  · subst h
    rcases hd with h | ⟨n, rest, h⟩
    exacts [.inl h, .inr ⟨n, rest, h.symm⟩]

/-- Of a node under `[1]` and one under `[2]`, whose stored row does not decode, the first is set
and the call fails on the second. -/
theorem setMerkleNodes_sets_in_order_example :
    ∃ w, Reachable (exampleEnv .readWrite) w ∧
      w.threads[0]? = some (.setMerkleNodes [⟨⟨.mk [1], 8⟩, .mk [9]⟩, ⟨⟨.mk [2], 8⟩, .mk [9]⟩]
        (.done (some (.decode 0)))) ∧
      setLog w.tx.log 0 = [⟨⟨.mk [1], 8⟩, .mk [9]⟩] ∧
      (setLog w.tx.log 0 = [] ∨ ∃ n rest, [⟨⟨.mk [1], 8⟩, .mk [9]⟩, ⟨⟨.mk [2], 8⟩, .mk [9]⟩] =
        setLog w.tx.log 0 ++ n :: rest) := by
  have hw := Reachable.run .init (Option.some_get (show (run (exampleEnv .readWrite)
    (World.init (exampleEnv .readWrite)) [.call (.setMerkleNodes [⟨⟨.mk [1], 8⟩, .mk [9]⟩,
      ⟨⟨.mk [2], 8⟩, .mk [9]⟩]), .step 0 false, .step 0 false, .step 0 false, .step 0 false,
      .step 0 false, .step 0 false]).isSome by decide)).symm
  refine ⟨_, hw, ?hth, by decide, (setMerkleNodes_sets_in_order hw ?hth).2.2.1 _ rfl⟩
  case hth => decide

end TrillianSpanner
