import TrillianSpanner.TreeTX.Revisions

/-! The subtree cache's mutex over every run. `GetNodes` holds it from its look at the cache to
the caching of what its miss handler returned, and `SetNodeHash` from its look at the cache to
its write, the loader's read included. So one call at most holds it, and the prefixes its holder
found missing stay missing until the holder fills them. Every subtree the cache holds is then one
it was handed with the node hashes accepted for its prefix written into it in order, and a
`Commit` flushes the last hash accepted for each node. -/

namespace TrillianSpanner

/-- Modelled from the spec: a layout whose `setHash` writes the hash that `hashIn` reads back for
every node `same` as the one written, and leaves the other nodes of its subtree alone. -/
structure NodeLayout.Stores (L : NodeLayout) (same : NodeID → NodeID → Bool) : Prop where
  refl : ∀ a, same a a = true
  prefixOf_eq : ∀ a b, same a b = true → L.prefixOf a = L.prefixOf b
  hashIn_same : ∀ st a b h, same a b = true → L.hashIn (L.setHash st a h) b = some h
  hashIn_other : ∀ st a b h, L.prefixOf a = L.prefixOf b → same a b = false →
    L.hashIn (L.setHash st a h) b = L.hashIn st b

def lastHash (same : NodeID → NodeID → Bool) (log : List Event) (id : NodeID) : Option ByteSlice :=
  (((log.filterMap Event.written).filter fun n => same n.NodeID id).getLast?).map Node.Hash

@[simp] theorem NodeLayout.writeAll_append_singleton (L : NodeLayout) (st : SubtreeProto)
    (ns : List Node) (n : Node) : L.writeAll st (ns ++ [n]) = L.setHash (L.writeAll st ns) n.NodeID n.Hash := by
  simp [NodeLayout.writeAll]

section Stores

variable {L : NodeLayout} {same : NodeID → NodeID → Bool} (hS : L.Stores same)
include hS

theorem NodeLayout.Stores.hashIn_writeAll (st : SubtreeProto) {id : NodeID} {ns : List Node}
    (hpx : ∀ n ∈ ns, L.prefixOf n.NodeID = L.prefixOf id) (hne : (ns.filter fun n => same n.NodeID id) ≠ []) :
    L.hashIn (L.writeAll st ns) id = ((ns.filter fun n => same n.NodeID id).getLast?).map Node.Hash := by
  induction ns using List.reverseRecOn with
  | nil => simp at hne
  | append_singleton ns n ih =>
    have hpx' : ∀ m ∈ ns, L.prefixOf m.NodeID = L.prefixOf id := fun m hm => hpx m (by simp [hm])
    cases hs : same n.NodeID id
    · simp only [List.filter_append, List.filter_singleton, hs, cond_false, List.append_nil] at hne ⊢
      rw [NodeLayout.writeAll_append_singleton, hS.hashIn_other _ _ _ _ (hpx n (by simp)) hs, ih hpx' hne]
    · simp [hS.hashIn_same _ _ _ _ hs, hs]

theorem NodeLayout.Stores.hashIn_hashesUnder (st : SubtreeProto) {log : List Event} {t : Nat}
    {n : Node} (hn : .setNodeHash t n ∈ log) :
    L.hashIn (L.writeAll st (hashesUnder L (L.prefixOf n.NodeID) log)) n.NodeID = lastHash same log n.NodeID := by
  have hfilter : (hashesUnder L (L.prefixOf n.NodeID) log).filter (fun m => same m.NodeID n.NodeID) =
      (log.filterMap Event.written).filter fun m => same m.NodeID n.NodeID := by
    rw [hashesUnder, List.filter_filter]
    refine List.filter_congr fun m _ => ?_
    cases hs : same m.NodeID n.NodeID
    · simp
    · simp [hS.prefixOf_eq _ _ hs]
  have hmem : n ∈ log.filterMap Event.written := List.mem_filterMap.2 ⟨_, hn, rfl⟩
  rw [lastHash, ← hfilter]
  refine hS.hashIn_writeAll st (fun m hm => by simpa using (List.mem_filter.1 hm).2) ?_
  rw [hfilter]
  exact List.ne_nil_of_mem (List.mem_filter.2 ⟨hmem, hS.refl _⟩)

end Stores

/-! ### The holder of the cache's mutex -/

@[simp] theorem Call.start_holdsCache (c : Call) : c.start.holdsCache = false := by cases c <;> rfl

variable {E : Env}

def Thread.CacheHeld (E : Env) (c : SubtreeCache) : Thread → Prop
  | .getMerkleNodes _ ids (.handler want) fan => (∀ f, fan = some f → f.ids = want.map Prod.snd) ∧
    ∀ x ∈ want, c.lookup x.1 = none ∧ ∃ id ∈ ids, x = (E.layout.prefixOf id, E.layout.subtreeID id)
  | .setMerkleNodes _ (.load _ n _) => c.lookup (E.layout.prefixOf n.NodeID) = none
  | _ => True

theorem Thread.cacheHeld_of_holdsCache_eq_false {th : Thread} {c : SubtreeCache} (h : th.holdsCache = false) :
    th.CacheHeld E c := by
  unfold Thread.holdsCache at h
  unfold Thread.CacheHeld
  split <;> simp_all

structure CacheLockInv (E : Env) (tx : TX) (ths : List Thread) : Prop where
  one : ∀ (i j : Nat) (thi thj : Thread), ths[i]? = some thi → ths[j]? = some thj → thi.holdsCache = true →
    thj.holdsCache = true → i = j
  held : ∀ (i : Nat) (th : Thread), ths[i]? = some th → th.CacheHeld E tx.cache

section Steps

variable {h w k b : Bool} {t : Nat} {th th' : Thread} {tx tx' : TX} {n : Next}

theorem ThreadStep.holdsCache (hs : ThreadStep E h w k t b th tx tx' (.moves th'))
    (hk : th'.holdsCache = true) : th.holdsCache = true ∨ k = false := by
  cases hs <;> (try cases ‹LockedStep _ _ _ _ _ _ _ _›) <;> simp_all [Thread.holdsCache, closeAt]

theorem ThreadStep.cache_frame (hs : ThreadStep E h w k t b th tx tx' n) :
    tx'.cache = tx.cache ∨ th.holdsCache = true ∨ k = false := by
  cases hs <;> (try cases ‹LockedStep _ _ _ _ _ _ _ _›) <;>
    (try rcases TX.getLatestRoot_ok ‹_› with ⟨-, rfl⟩ | ⟨-, -, rfl⟩) <;> simp_all [Thread.holdsCache]

theorem ThreadStep.cacheHeld (hs : ThreadStep E h w k t b th tx tx' n) (hold : th.CacheHeld E tx.cache) :
    (n.after th).CacheHeld E tx'.cache := by
  cases hs with
  | getMissing =>
    exact ⟨fun f hf => by cases hf; rfl, fun x hx => SubtreeCache.mem_missing E.layout hx⟩
  | @recvSubtree _ _ _ fan => exact ⟨fun f hf => by cases hf; exact hold.1 fan rfl, hold.2⟩
  | setMiss hl => exact hl
  | loadPanic => exact hold
  | _ => trivial

end Steps

section Preservation

variable {tx tx' : TX} {ths : List Thread} {t : Nat} {th th' : Thread}

theorem CacheLockInv.set (hi : CacheLockInv E tx ths) (hth : ths[t]? = some th)
    (hown : th'.CacheHeld E tx'.cache)
    (hfree : tx'.cache = tx.cache ∧ (th'.holdsCache = true → th.holdsCache = true) ∨
      ∀ i thi, i ≠ t → ths[i]? = some thi → thi.holdsCache = false) :
    CacheLockInv E tx' (ths.set t th') := by
  refine ⟨fun i j thi thj hi' hj' hki hkj => ?_, fun i thi hi' => ?_⟩
  · rcases getElem?_set_of hi' with ⟨rfl, rfl⟩ | ⟨hit, hi₀⟩ <;>
      rcases getElem?_set_of hj' with ⟨rfl, rfl⟩ | ⟨hjt, hj₀⟩
    · rfl
    · rcases hfree with ⟨-, h⟩ | h
      · exact hi.one _ _ _ _ hth hj₀ (h hki) hkj
      · simp [h j thj hjt hj₀] at hkj
    · rcases hfree with ⟨-, h⟩ | h
      · exact hi.one _ _ _ _ hi₀ hth hki (h hkj)
      · simp [h i thi hit hi₀] at hki
    · exact hi.one _ _ _ _ hi₀ hj₀ hki hkj
  · rcases getElem?_set_of hi' with ⟨rfl, rfl⟩ | ⟨hit, hi₀⟩
    · exact hown
    · rcases hfree with ⟨hc, -⟩ | h
      · exact hc ▸ hi.held i thi hi₀
      · exact Thread.cacheHeld_of_holdsCache_eq_false (h i thi hit hi₀)

theorem CacheLockInv.thread_step {w : World} (hi : CacheLockInv E w.tx w.threads)
    (hth : w.threads[t]? = some th) {b : Bool} {n : Next}
    (hts : ThreadStep E w.held w.writeHeld w.cacheHeld t b th w.tx tx' n) :
    CacheLockInv E tx' (w.threads.set t (n.after th)) := by
  have hfree : th.holdsCache = true ∨ w.cacheHeld = false →
      ∀ i thi, i ≠ t → w.threads[i]? = some thi → thi.holdsCache = false := by
    rintro (h | h) i thi hit hi'
    · exact Bool.eq_false_iff.2 fun hk => hit (hi.one _ _ _ _ hi' hth hk h)
    · exact World.cacheHeld_eq_false h hi'
  refine hi.set hth (hts.cacheHeld (hi.held t th hth)) ?_
  rcases hts.cache_frame with hc | h
  · cases n with
    | panics p => exact .inl ⟨hc, id⟩
    | moves th' =>
      by_cases hk : th'.holdsCache = true
      · exact (hts.holdsCache hk).elim (fun h => .inl ⟨hc, fun _ => h⟩) fun h => .inr (hfree (.inr h))
      · exact .inl ⟨hc, fun h => absurd h hk⟩
  · exact .inr (hfree h)

theorem CacheLockInv.fetch_step {w : World} (hi : CacheLockInv E w.tx w.threads)
    (hth : w.threads[t]? = some th) {j : Nat} {n : Next} (hfs : FetchStep E t j th w.tx tx' n) :
    CacheLockInv E tx' (w.threads.set t (n.after th)) := by
  have hsame : tx'.cache = w.tx.cache := by
    rcases hfs.effects.1 with rfl | ⟨_, _, rfl⟩ <;> rfl
  obtain ⟨rev, ids, pc, f, f', rfl, hafter, hids⟩ := hfs.after
  rw [hafter]
  have hold := hi.held t _ hth
  refine hi.set hth ?_ (.inl ⟨hsame, fun h => by cases pc <;> exact h⟩)
  rw [hsame]
  cases pc with
  | handler want => exact ⟨fun f₁ hf₁ => by cases hf₁; exact hids.trans (hold.1 f rfl), hold.2⟩
  | _ => trivial

theorem CacheLockInv.call_step (hi : CacheLockInv E tx ths) (c : Call) :
    CacheLockInv E tx (ths ++ [c.start]) := by
  refine ⟨fun i j thi thj hi' hj' hki hkj => ?_, fun i thi hi' => ?_⟩
  · rcases getElem?_append_singleton hi' with hi' | ⟨-, rfl⟩
    · rcases getElem?_append_singleton hj' with hj' | ⟨-, rfl⟩
      · exact hi.one _ _ _ _ hi' hj' hki hkj
      · simp at hkj
    · simp at hki
  · rcases getElem?_append_singleton hi' with hi' | ⟨-, rfl⟩
    · exact hi.held i thi hi'
    · exact Thread.cacheHeld_of_holdsCache_eq_false (Call.start_holdsCache c)

end Preservation

theorem Reachable.cacheLockInv {w : World} (hw : Reachable E w) : CacheLockInv E w.tx w.threads := by
  induction hw with
  | init => exact ⟨fun _ _ _ _ h => by simp [World.init] at h, fun _ _ h => by simp [World.init] at h⟩
  | step a hw hs ih =>
    rcases step_cases hs with ⟨c, rfl⟩ | ⟨t, b, th, tx', n, hth, hts, rfl⟩ |
      ⟨t, j, th, tx', n, hth, hfs, rfl⟩
    · exact ih.call_step c
    · rw [World.apply_tx, World.apply_threads hth]
      exact ih.thread_step hth hts
    · rw [World.apply_tx, World.apply_threads hth]
      exact ih.fetch_step hth hfs

/-! ### The accepted hashes -/

section Hashes

variable (hL : E.layout.Keyed)
include hL

theorem CacheFrom.thread_step {w : World} (hw : Reachable E w)
    (hc : CacheFrom E.layout (fun _ _ => True) w.tx.cache w.tx.log) {t : Nat} {th : Thread}
    (hth : w.threads[t]? = some th) {b : Bool} {tx' : TX} {n : Next}
    (hts : ThreadStep E w.held w.writeHeld w.cacheHeld t b th w.tx tx' n) :
    CacheFrom E.layout (fun _ _ => True) tx'.cache tx'.log := by
  have hwi := hw.writeInv
  have hold := hw.cacheLockInv.held t th hth
  cases hts
  case handlerReturn rev ids want fan hl =>
    obtain ⟨hids, hwant⟩ := hold
    obtain ⟨f, hf, hinv, -⟩ := hw.getInv t _ hth
    cases hf
    obtain ⟨-, hperm⟩ := (hinv.returned hl).ok_result rfl
    refine (CacheFrom.foldl_insert (fun x hx => ?_) (CacheFrom.foldl_insert (fun s hs => ?_) hc)).append rfl
    · exact ⟨hwi.hashesUnder_eq_nil (hwant x (List.mem_filter.1 hx).1).1, trivial⟩
    · obtain ⟨id, hid, hget⟩ : ∃ id ∈ fan.ids, getSubtree E.unmarshal (some E.read) rev id = .ok (some s, none) := by
        simpa [hperm.mem_iff, okSubtree_eq_some] using hs
      rw [hids fan rfl] at hid
      obtain ⟨x, hx, rfl⟩ := List.mem_map.1 hid
      obtain ⟨hn, id', -, rfl⟩ := hwant x hx
      exact ⟨by rw [hL.fetched_prefix hget]; exact hwi.hashesUnder_eq_nil hn, trivial⟩
  case setHit => exact hc.setNode t _
  case load nodes rest n' wr st hget =>
    have hread : CacheFrom E.layout (fun _ _ => True) w.tx.cache
        (w.tx.logRead t (wrapInt64 (wr - 1)) (E.layout.subtreeID n'.NodeID)).log :=
      hc.append (by split <;> simp [Event.written])
    refine (hread.insert ?_ trivial).setNode t n'
    rw [TX.logRead_log, hashesUnder_append, hwi.hashesUnder_eq_nil hold]
    split <;> rfl
  all_goals
    (try cases ‹LockedStep _ _ _ _ _ _ _ _›) <;>
    (try rcases TX.getLatestRoot_ok ‹_› with ⟨-, rfl⟩ | ⟨-, -, rfl⟩) <;>
    exact hc.quiet (by simp) (by simp [Event.written, List.filterMap_map])

theorem Reachable.cacheFrom {w : World} (hw : Reachable E w) :
    CacheFrom E.layout (fun _ _ => True) w.tx.cache w.tx.log := by
  induction hw with
  | init => intro px st h; simp [TX.init, SubtreeCache.empty, SubtreeCache.lookup, SubtreeCache.find] at h
  | step a hw hs ih =>
    rcases step_cases hs with ⟨c, rfl⟩ | ⟨t, b, th, tx', n, hth, hts, rfl⟩ |
      ⟨t, j, th, tx', n, hth, hfs, rfl⟩
    · exact ih
    · rw [World.apply_tx]
      exact ih.thread_step hL hw hth hts
    · rw [World.apply_tx]
      rcases hfs.effects.1 with rfl | ⟨rev, id, rfl⟩
      · exact ih
      · exact ih.append (by split <;> simp [Event.written])

end Hashes

/-- No accepted write is lost at commit. On a layout that keys subtrees by prefix and files each
node's hash where `hashIn` reads it back: a `SetMerkleNodes` that returned nil before a `Commit`
flushed handed each of its nodes to `SetNodeHash` before the flush, and the flushed subtree under
the node's prefix holds the last hash accepted for the node; and a `SetMerkleNodes` that looks at
`t.stx` after the transaction closed finds it closed, returns `ErrTransactionClosed` and makes no
cache or backend call. -/
theorem setMerkleNodes_writes_reach_flush (hL : E.layout.Keyed) {same : NodeID → NodeID → Bool}
    (hS : E.layout.Stores same) {w : World} (hw : Reachable E w) :
    (∀ (t : Nat) (nodes : List Node) (c : Nat) (sts : List SubtreeProto) (pre post : List Event),
      w.threads[t]? = some (.setMerkleNodes nodes (.done none)) →
      w.tx.log = pre ++ .flush c sts :: post →
      ∀ n ∈ nodes, .setNodeHash t n ∈ pre ∧ ∃ st ∈ sts,
        w.tx.cache.lookup (E.layout.prefixOf n.NodeID) = some st ∧
        E.layout.hashIn st n.NodeID = lastHash same pre n.NodeID) ∧
    ∀ (t : Nat) (nodes : List Node) (pc : SetPc) (pre : List Event) (c : Nat) (post : List Event)
      (b : Bool), w.threads[t]? = some (.setMerkleNodes nodes pc) →
      w.tx.log = pre ++ .closed c :: post → (t, b) ∈ foundLog post →
      b = false ∧ pc = .done (some .transactionClosed) ∧ callsOf w.tx.log t = [] := by
  have hwi := hw.writeInv
  have hl := hw.lifeInv
  refine ⟨fun t nodes c sts pre post hth hlog n hn => ?_, fun t nodes pc pre c post b hth hlog hb => ?_⟩
  · have hset := (hwi.sets t nodes _ hth).1 n hn
    have hpre : .setNodeHash t n ∈ pre := by
      rw [hlog, List.mem_append, List.mem_cons] at hset
      rcases hset with h | h | h
      · exact h
      · cases h
      · exact absurd h (hwi.afterFlush pre c sts post hlog t n)
    have hpost : (Event.flush c sts :: post).filterMap Event.written = [] :=
      written_eq_nil fun t' n' h => (List.mem_cons.1 h).elim (fun h => by cases h)
        (hwi.afterFlush pre c sts post hlog t' n')
    have hd := hwi.marked t n hset
    obtain ⟨st, hst⟩ := Option.isSome_iff_exists.1 (hwi.cached _ hd)
    obtain ⟨st₀, -, rfl⟩ := hw.cacheFrom hL _ _ hst
    refine ⟨hpre, _, (hwi.flushed c sts (by simp [hlog])) ▸ SubtreeCache.mem_dirtySubtrees hd hst, hst, ?_⟩
    rw [hlog, hashesUnder_append, show hashesUnder E.layout _ (Event.flush c sts :: post) = [] by
      simp [hashesUnder, hpost], List.append_nil]
    exact hS.hashIn_hashesUnder st₀ hpre
  · obtain rfl : b = false := hl.afterClose pre post c hlog _ hb
    have hf : (t, false) ∈ foundLog w.tx.log := by
      rw [hlog, ← List.singleton_append, ← List.append_assoc, foundLog_append]
      exact List.mem_append_right _ hb
    obtain ⟨hc, hcalls⟩ := hl.closedOut t _ hth hf
    exact ⟨rfl, by simpa [Thread.closedOut] using hc, hcalls⟩

theorem exampleEnv_stores (sc : Scope) : (exampleEnv sc).layout.Stores
    fun a b => (exampleEnv sc).layout.prefixOf a == (exampleEnv sc).layout.prefixOf b where
  refl a := by simp
  prefixOf_eq a b h := by simpa using h
  hashIn_same _ _ _ _ _ := rfl
  hashIn_other _ _ _ _ hpx h := by simp [hpx] at h

/-- The interleaving that lost a write before the cache had its mutex: `GetMerkleNodes` misses the
subtree under `[1]` and holds the mutex while its fetch reads the hash `[6]`; `SetMerkleNodes` of
the hash `[9]` waits for it, writes into the cached subtree, and `Commit` flushes `[9]`. -/
theorem setMerkleNodes_writes_reach_flush_example :
    ∃ w, Reachable (exampleEnv .readWrite) w ∧
      w.threads[1]? = some (.setMerkleNodes [⟨⟨.mk [1], 8⟩, .mk [9]⟩] (.done none)) ∧
      w.tx.log = [.checked 0 true, .getNodes 0, .checked 1 true, .query 1, .read 0 4 (some .readWrite),
        .returned 0, .setNodeHash 1 ⟨⟨.mk [1], 8⟩, .mk [9]⟩, .returned 1, .locked 2 true] ++
        .flush 2 [⟨.mk [1], 8, .mk [9], [], []⟩] ::
        [.buffer 2 ⟨1, .mk [1], 5, [9, 1]⟩, .closed 2, .returned 2] ∧
      ∃ st ∈ [(⟨.mk [1], 8, .mk [9], [], []⟩ : SubtreeProto)], w.tx.cache.lookup [1] = some st ∧
        (exampleEnv .readWrite).layout.hashIn st ⟨.mk [1], 8⟩ =
          lastHash (fun a b => a.Path.bytes.take 1 == b.Path.bytes.take 1)
            [.checked 0 true, .getNodes 0, .checked 1 true, .query 1, .read 0 4 (some .readWrite),
              .returned 0, .setNodeHash 1 ⟨⟨.mk [1], 8⟩, .mk [9]⟩, .returned 1, .locked 2 true]
            ⟨.mk [1], 8⟩ := by
  have hw := Reachable.run .init (Option.some_get (show (run (exampleEnv .readWrite)
    (World.init (exampleEnv .readWrite)) [.call (.getMerkleNodes 4 [⟨.mk [1], 8⟩]), .step 0 false,
      .call (.setMerkleNodes [⟨⟨.mk [1], 8⟩, .mk [9]⟩]), .step 1 false, .step 1 false,
      .fetch 0 0, .fetch 0 0, .step 0 false, .step 0 false, .step 1 false, .step 1 false,
      .call .commit, .step 2 false, .step 2 false, .step 2 false]).isSome by decide)).symm
  refine ⟨_, hw, ?hth, ?hlog, ((setMerkleNodes_writes_reach_flush (exampleEnv_keyed _) (exampleEnv_stores _)
    hw).1 1 _ 2 _ _ _ ?hth ?hlog _ (List.mem_singleton_self _)).2⟩
  case hth => decide
  case hlog => decide

end TrillianSpanner
