import TrillianSpanner.TreeTX.Writes

/-! The revision `GetMerkleNodes` reads through the cache. The cache calls the miss handler only
for the subtrees it lacks, and only the handler is given the call's revision, so a subtree an
earlier call cached at another revision stands in for the one asked for. When the calls on a
transaction run one after another and keep to one revision, every `GetMerkleNodes` and every read
of the backend, the `SetMerkleNodes` loader's included, every subtree the cache holds is the one
stored at that revision with the transaction's node hashes written into it in order:
`GetMerkleNodes` returns the nodes of those subtrees, and `Commit` flushes them. -/

namespace TrillianSpanner

/-! ### The spec's reading of a node -/

/-- Modelled from the spec: a layout that hands the miss handler and the loader one id per
subtree, whose key is the subtree's prefix. -/
structure NodeLayout.Keyed (L : NodeLayout) : Prop where
  subtreeID_eq : ∀ a b, L.prefixOf a = L.prefixOf b → L.subtreeID a = L.subtreeID b
  key : ∀ id key, subtreeKey (L.subtreeID id) = .ok (key, none) → key.bytes = L.prefixOf id

def Event.written : Event → Option Node
  | .setNodeHash _ n => some n
  | _ => none

def hashesUnder (L : NodeLayout) (px : List UInt8) (log : List Event) : List Node :=
  (log.filterMap Event.written).filter fun n => L.prefixOf n.NodeID = px

def NodeLayout.writeAll (L : NodeLayout) (st : SubtreeProto) (ns : List Node) : SubtreeProto :=
  ns.foldl (fun st n => L.setHash st n.NodeID n.Hash) st

/-- Modelled from the spec: the subtree a read at `rev` finds for the subtree id `id` on the open
scope, the empty one where none is stored; `none` when the read fails. -/
def Env.storedAt (E : Env) (rev : Int) (id : NodeID) : Option SubtreeProto :=
  match getSubtree E.unmarshal (some E.read) rev id with
  | .ok (st, none) => some (st.getD (E.layout.empty id))
  | _ => none

/-- Modelled from the spec: the subtree of node `id` as stored at `rev`, with the node hashes of
`log` written into it. -/
def Env.subtreeAt (E : Env) (rev : Int) (log : List Event) (id : NodeID) : Option SubtreeProto :=
  (E.storedAt rev (E.layout.subtreeID id)).map
    (E.layout.writeAll · (hashesUnder E.layout (E.layout.prefixOf id) log))

/-- Modelled from the spec: the nodes of `ids` a read at `rev` returns after the writes of
`log`, those whose subtree holds a hash. -/
def Env.nodesAt (E : Env) (rev : Int) (log : List Event) (ids : List NodeID) : List Node :=
  ids.filterMap fun id => ((E.subtreeAt rev log id).bind (E.layout.hashIn · id)).map (⟨id, ·⟩)

def readRevs (log : List Event) : List Int :=
  log.filterMap fun | .read _ rev _ => some rev | _ => none

@[simp] theorem hashesUnder_append (L : NodeLayout) (px : List UInt8) (l l' : List Event) :
    hashesUnder L px (l ++ l') = hashesUnder L px l ++ hashesUnder L px l' := by
  simp [hashesUnder, List.filterMap_append, List.filter_append]

theorem written_eq_nil {l : List Event} (h : ∀ t n, .setNodeHash t n ∉ l) :
    l.filterMap Event.written = [] :=
  List.filterMap_eq_nil_iff.2 fun e he => by cases e <;> simp_all [Event.written]

variable {E : Env} {R : Int}

theorem subtreeAt_append {es : List Event} (h : es.filterMap Event.written = []) (log : List Event)
    (id : NodeID) : E.subtreeAt R (log ++ es) id = E.subtreeAt R log id := by
  simp [Env.subtreeAt, hashesUnder, h]

theorem subtreeAt_setNodeHash (log : List Event) (t : Nat) (n : Node) (id : NodeID) :
    E.subtreeAt R (log ++ [.setNodeHash t n]) id = (E.subtreeAt R log id).map fun st =>
      if E.layout.prefixOf n.NodeID = E.layout.prefixOf id then E.layout.setHash st n.NodeID n.Hash
      else st := by
  simp only [Env.subtreeAt, Option.map_map]
  congr 1
  funext b
  split <;> simp [hashesUnder, Event.written, NodeLayout.writeAll, *]

theorem NodeLayout.Keyed.subtreeAt_congr (hL : E.layout.Keyed) {a b : NodeID}
    (h : E.layout.prefixOf a = E.layout.prefixOf b) (log : List Event) :
    E.subtreeAt R log a = E.subtreeAt R log b := by
  simp [Env.subtreeAt, hL.subtreeID_eq a b h, h]

theorem NodeLayout.Keyed.fetched_prefix (hL : E.layout.Keyed) {id : NodeID} {s : SubtreeProto}
    {e : Option Error} (h : getSubtree E.unmarshal (some E.read) R (E.layout.subtreeID id) = .ok (some s, e)) :
    s.Prefix.bytes = E.layout.prefixOf id := by
  obtain ⟨-, key, hk, -, hp, -⟩ := getSubtree_some h
  rw [hp, hL.key id key hk]

theorem reachesRead_of_getSubtree {tx : TX} {rev : Int} {id : NodeID} {st : Option SubtreeProto}
    (h : tx.getSubtree E rev id = .ok (st, none)) : reachesRead id = true := by
  unfold TX.getSubtree getSubtree at h
  unfold reachesRead
  split at h <;> simp_all

theorem okSubtree_eq_some {r : Except GoPanic (Option SubtreeProto × Option Error)} {s : SubtreeProto} :
    okSubtree r = some s ↔ r = .ok (some s, none) := by
  unfold okSubtree
  split <;> simp_all

/-! ### What the cache holds -/

def CacheFrom (L : NodeLayout) (base : List UInt8 → SubtreeProto → Prop) (c : SubtreeCache)
    (log : List Event) : Prop :=
  ∀ px st, c.lookup px = some st → ∃ st₀, base px st₀ ∧ st = L.writeAll st₀ (hashesUnder L px log)

section CacheFrom

variable {L : NodeLayout} {base : List UInt8 → SubtreeProto → Prop} {c : SubtreeCache} {log : List Event}

theorem CacheFrom.append (hc : CacheFrom L base c log) {es : List Event}
    (h : es.filterMap Event.written = []) : CacheFrom L base c (log ++ es) := fun px st hl => by
  simpa [hashesUnder, h] using hc px st hl

theorem CacheFrom.quiet (hc : CacheFrom L base c log) {log' : List Event} (hpre : log <+: log')
    (hw : (log'.drop log.length).filterMap Event.written = []) : CacheFrom L base c log' := by
  obtain ⟨es, rfl⟩ := hpre
  simp only [List.drop_left] at hw
  exact hc.append hw

theorem CacheFrom.insert (hc : CacheFrom L base c log) {px : List UInt8} {st : SubtreeProto}
    (hw : hashesUnder L px log = []) (hb : base px st) : CacheFrom L base (c.insert px st) log :=
  fun q st' hl => by
    rw [SubtreeCache.lookup_insert] at hl
    split at hl
    · cases hl
      subst_vars
      exact ⟨st, hb, by simp [hw, NodeLayout.writeAll]⟩
    · exact hc q st' hl

theorem CacheFrom.foldl_insert {α : Type} {k : α → List UInt8} {v : α → SubtreeProto} :
    ∀ {l : List α}, (∀ a ∈ l, hashesUnder L (k a) log = [] ∧ base (k a) (v a)) →
    ∀ {c : SubtreeCache}, CacheFrom L base c log →
      CacheFrom L base (l.foldl (fun c a => c.insert (k a) (v a)) c) log
  | [], _, _, hc => hc
  | a :: _, h, _, hc =>
    CacheFrom.foldl_insert (fun b hb => h b (List.mem_cons_of_mem _ hb))
      (hc.insert (h a (List.mem_cons_self _ _)).1 (h a (List.mem_cons_self _ _)).2)

theorem CacheFrom.setNode (hc : CacheFrom L base c log) (t : Nat) (n : Node) :
    CacheFrom L base (c.setNode L n) (log ++ [.setNodeHash t n]) := fun px st hl => by
  rw [SubtreeCache.lookup_setNode] at hl
  split at hl
  · obtain ⟨st₁, hl₁, rfl⟩ := Option.map_eq_some'.1 hl
    obtain ⟨st₀, hb, rfl⟩ := hc _ st₁ hl₁
    exact ⟨st₀, hb, by simp [hashesUnder, Event.written, NodeLayout.writeAll, *]⟩
  · obtain ⟨st₀, hb, rfl⟩ := hc px st hl
    exact ⟨st₀, hb, by simp [hashesUnder, Event.written, *]⟩

end CacheFrom

def CacheAt (E : Env) (R : Int) : SubtreeCache → List Event → Prop :=
  CacheFrom E.layout fun px st₀ => ∃ id, E.layout.prefixOf id = px ∧ E.storedAt R (E.layout.subtreeID id) = some st₀

section CacheAt

variable {c : SubtreeCache} {log : List Event}

theorem CacheAt.subtreeAt (hc : CacheAt E R c log) (hL : E.layout.Keyed) {id : NodeID} {st : SubtreeProto}
    (hl : c.lookup (E.layout.prefixOf id) = some st) : E.subtreeAt R log id = some st := by
  obtain ⟨st₀, ⟨id', hpx, hst⟩, rfl⟩ := hc _ st hl
  simp [Env.subtreeAt, ← hL.subtreeID_eq _ _ hpx, hst]

theorem CacheAt.populate (hc : CacheAt E R c log) (hL : E.layout.Keyed)
    {want : List (List UInt8 × NodeID)} {ret : List SubtreeProto}
    (hwant : ∀ x ∈ want, hashesUnder E.layout x.1 log = [] ∧
      ∃ id, x = (E.layout.prefixOf id, E.layout.subtreeID id))
    (hok : ∀ x ∈ want, ∃ st, getSubtree E.unmarshal (some E.read) R x.2 = .ok (st, none))
    (hret : ∀ s, s ∈ ret ↔ ∃ x ∈ want, getSubtree E.unmarshal (some E.read) R x.2 = .ok (some s, none)) :
    CacheAt E R (c.populate E.layout want ret) log := by
  refine CacheFrom.foldl_insert (fun x hx => ?_) (CacheFrom.foldl_insert (fun s hs => ?_) hc)
  · obtain ⟨hx, hnone⟩ := List.mem_filter.1 hx
    obtain ⟨hw, id, rfl⟩ := hwant x hx
    obtain ⟨st, hget⟩ := hok _ hx
    refine ⟨hw, id, rfl, ?_⟩
    cases st with
    | none => simp [Env.storedAt, hget]
    | some s =>
      have := List.all_eq_true.1 hnone s ((hret s).2 ⟨_, hx, hget⟩)
      simp [hL.fetched_prefix hget] at this
  · obtain ⟨x, hx, hget⟩ := (hret s).1 hs
    obtain ⟨hw, id, rfl⟩ := hwant x hx
    exact ⟨(hL.fetched_prefix hget).symm ▸ hw, id, (hL.fetched_prefix hget).symm, by simp [Env.storedAt, hget]⟩

theorem CacheAt.nodes (hc : CacheAt E R c log) (hL : E.layout.Keyed) {ids : List NodeID}
    (hheld : ∀ id ∈ ids, (c.lookup (E.layout.prefixOf id)).isSome) :
    c.nodes E.layout ids = E.nodesAt R log ids := by
  refine List.filterMap_congr fun id hid => ?_
  obtain ⟨st, hst⟩ := Option.isSome_iff_exists.1 (hheld id hid)
  rw [hst, hc.subtreeAt hL hst]

end CacheAt

theorem dirty_setNode {c : SubtreeCache} {log : List Event}
    (hd : ∀ px ∈ c.dirty, hashesUnder E.layout px log ≠ []) (t : Nat) (n : Node) :
    ∀ px ∈ (c.setNode E.layout n).dirty, hashesUnder E.layout px (log ++ [.setNodeHash t n]) ≠ [] := by
  intro px hpx
  unfold SubtreeCache.setNode at hpx
  split at hpx
  · have : px ∈ c.dirty ∨ px = E.layout.prefixOf n.NodeID := by split at hpx <;> simp_all
    rcases this with h | rfl
    · simp [hd px h]
    · simp [hashesUnder, Event.written]
  · simp [hd px hpx]

theorem WriteInv.hashesUnder_eq_nil {tx : TX} {ths : List Thread} (hwi : WriteInv E tx ths)
    {px : List UInt8} (h : tx.cache.lookup px = none) : hashesUnder E.layout px tx.log = [] := by
  refine List.filter_eq_nil_iff.2 fun n hn hpx => ?_
  obtain ⟨e, he, hen⟩ := List.mem_filterMap.1 hn
  cases e <;> simp only [Event.written, reduceCtorEq, Option.some.injEq] at hen
  subst hen
  have := hwi.cached _ (hwi.marked _ _ he)
  simp_all

/-! ### Serial runs -/

def World.serialAt (w : World) (rev : Int) : Action → Bool
  | .call (.getMerkleNodes r _) => w.threads.all Thread.returned && r == rev
  | .call _ => w.threads.all Thread.returned
  | .step _ _ | .fetch _ _ => true

inductive Serial (E : Env) (rev : Int) : World → Prop
  | init : Serial E rev (World.init E)
  | step {w w' : World} (a : Action) : Serial E rev w → w.serialAt rev a = true →
      step E w a = some w' → Serial E rev w'

def runSerial (E : Env) (rev : Int) : World → List Action → Option World
  | w, [] => some w
  | w, a :: as => if w.serialAt rev a then (step E w a).bind (runSerial E rev · as) else none

theorem Serial.run {rev : Int} {w w' : World} (hw : Serial E rev w) :
    ∀ {as : List Action}, runSerial E rev w as = some w' → Serial E rev w'
  | [], h => by cases h; exact hw
  | a :: as, h => by
    simp only [runSerial] at h
    split at h
    · obtain ⟨w₁, h₁, h₂⟩ := Option.bind_eq_some.1 h
      exact (hw.step a ‹_› h₁).run h₂
    · cases h

theorem Serial.reachable {rev : Int} {w : World} (hw : Serial E rev w) : Reachable E w := by
  induction hw with
  | init => exact .init
  | step a _ _ hs ih => exact ih.step a hs

/-! ### The invariant of serial runs -/

def GetAt (E : Env) (R : Int) (tx : TX) (t : Nat) (ids : List NodeID) : GetPc → Option Fanout → Prop
  | .handler want, some f => f.ids = want.map Prod.snd ∧
    (∀ x ∈ want, tx.cache.lookup x.1 = none ∧
      ∃ id ∈ ids, x = (E.layout.prefixOf id, E.layout.subtreeID id)) ∧
    ∀ id ∈ ids, (tx.cache.lookup (E.layout.prefixOf id)).isSome ∨ ∃ x ∈ want, x.1 = E.layout.prefixOf id
  | .done (some nodes) none, _ =>
    ∃ pre post, tx.log = pre ++ .returned t :: post ∧ nodes = E.nodesAt R pre ids
  | _, _ => True

def ThreadAt (E : Env) (R : Int) (tx : TX) (t : Nat) : Thread → Prop
  | .getMerkleNodes rev ids pc fan => rev = R ∧ GetAt E R tx t ids pc fan
  | .setMerkleNodes _ (.load _ n _) => tx.cache.lookup (E.layout.prefixOf n.NodeID) = none
  | _ => True

structure CacheInv (E : Env) (R : Int) (tx : TX) (ths : List Thread) : Prop where
  last : ∀ i th, ths[i]? = some th → th.returned = false → i + 1 = ths.length
  cache : CacheAt E R tx.cache tx.log
  dirty : ∀ px ∈ tx.cache.dirty, hashesUnder E.layout px tx.log ≠ []
  threads : ∀ i th, ths[i]? = some th → ThreadAt E R tx i th

section Preservation

variable {tx tx' : TX} {t : Nat} {es : List Event}

theorem GetAt.frame {ids : List NodeID} {pc : GetPc} {fan fan' : Option Fanout}
    (h : GetAt E R tx t ids pc fan) (hc : tx'.cache = tx.cache) (hlog : tx'.log = tx.log ++ es)
    (hf : fan'.map Fanout.ids = fan.map Fanout.ids) : GetAt E R tx' t ids pc fan' := by
  rcases pc with _ | want | ⟨_ | nodes, _ | e⟩
  · trivial
  · rcases fan with _ | f <;> rcases fan' with _ | f' <;> simp only [Option.map_none', Option.map_some',
      reduceCtorEq, Option.some.injEq] at hf
    · trivial
    · obtain ⟨h1, h2, h3⟩ := h
      simp only [GetAt, hc]
      exact ⟨hf.trans h1, h2, h3⟩
  · trivial
  · trivial
  · obtain ⟨pre, post, hp, hn⟩ := h
    exact ⟨pre, post ++ es, by simp [hlog, hp], hn⟩
  · trivial

theorem ThreadAt.frame {th : Thread} (h : ThreadAt E R tx t th) (hc : tx'.cache = tx.cache)
    (hlog : tx'.log = tx.log ++ es) : ThreadAt E R tx' t th :=
  match th, h with
  | .getMerkleNodes _ _ _ _, ⟨h1, h2⟩ => ⟨h1, h2.frame hc hlog rfl⟩
  | .setMerkleNodes _ (.load _ _ _), h => by show tx'.cache.lookup _ = none; rw [hc]; exact h
  | .commit _, _ | .rollback _, _ | .close _, _ | .isOpen _, _ | .readRevision _, _
  | .writeRevision _, _ | .setMerkleNodes _ .rlock, _ | .setMerkleNodes _ .writeRev, _
  | .setMerkleNodes _ (.node _ _), _ | .setMerkleNodes _ (.done _), _ => trivial

theorem ThreadAt.of_returned {th : Thread} (h : ThreadAt E R tx t th) (hr : th.returned = true)
    (hlog : tx'.log = tx.log ++ es) : ThreadAt E R tx' t th := by
  rcases th with _ | _ | _ | _ | ⟨rev, ids, _ | _ | ⟨_ | nodes, _ | e⟩, fan⟩ | ⟨_, _ | _ | _ | _ | _⟩ | _ | _ <;>
    simp only [Thread.returned, reduceCtorEq] at hr <;> first | exact h | skip
  obtain ⟨h1, pre, post, hp, hn⟩ := h
  exact ⟨h1, pre, post ++ es, by simp [hlog, hp], hn⟩

theorem ThreadStep.returned_eq_false {h w k b : Bool} {th : Thread} {n : Next}
    (hs : ThreadStep E h w k t b th tx tx' n) : th.returned = false := by
  cases hs <;> (try cases ‹LockedStep _ _ _ _ _ _ _ _›) <;> rfl

theorem FetchStep.after {j : Nat} {th : Thread} {n : Next} (hs : FetchStep E t j th tx tx' n) :
    ∃ rev ids pc f f', th = .getMerkleNodes rev ids pc (some f) ∧
      n.after th = .getMerkleNodes rev ids pc (some f') ∧ f'.ids = f.ids := by
  cases hs <;> exact ⟨_, _, _, _, _, rfl, rfl, rfl⟩

theorem CacheInv.set {ths : List Thread} {th th' : Thread} (hci : CacheInv E R tx ths)
    (hth : ths[t]? = some th) (hr : th.returned = false) (hlog : tx'.log = tx.log ++ es)
    (hc : CacheAt E R tx'.cache tx'.log) (hd : ∀ px ∈ tx'.cache.dirty, hashesUnder E.layout px tx'.log ≠ [])
    (ht : ThreadAt E R tx' t th') : CacheInv E R tx' (ths.set t th') := by
  have hlast := hci.last t th hth hr
  refine ⟨fun i thi hi hri => ?_, hc, hd, fun i thi hi => ?_⟩ <;>
    rcases getElem?_set_of hi with ⟨rfl, rfl⟩ | ⟨hne, hi⟩
  · simpa using hlast
  · simpa using hci.last i thi hi hri
  · exact ht
  · have : thi.returned = true := by
      by_contra hri
      have := hci.last i thi hi (by simpa using hri)
      omega
    exact (hci.threads i thi hi).of_returned this hlog

theorem CacheInv.quiet {ths : List Thread} (hci : CacheInv E R tx ths) (hpre : tx.log <+: tx'.log)
    (hc : tx'.cache = tx.cache) (hw : (tx'.log.drop tx.log.length).filterMap Event.written = []) :
    CacheAt E R tx'.cache tx'.log ∧ ∀ px ∈ tx'.cache.dirty, hashesUnder E.layout px tx'.log ≠ [] := by
  obtain ⟨es, hes⟩ := hpre
  rw [← hes] at hw ⊢
  simp only [List.drop_left] at hw
  rw [hc]
  exact ⟨hci.cache.append hw, fun px hpx => by simpa [hashesUnder, hw] using hci.dirty px hpx⟩

section Step

variable (hL : E.layout.Keyed)
include hL

theorem CacheInv.thread_step {w : World} (hw : Reachable E w) (hci : CacheInv E R w.tx w.threads)
    {th : Thread} (hth : w.threads[t]? = some th) {b : Bool} {n : Next}
    (hts : ThreadStep E w.held w.writeHeld w.cacheHeld t b th w.tx tx' n)
    (hR : ∀ rev ∈ readRevs tx'.log, rev = R) : CacheInv E R tx' (w.threads.set t (n.after th)) := by
  obtain ⟨es, hes, -⟩ := hts.log_extends
  have hold := hci.threads t th hth
  have hwi := hw.writeInv
  suffices h : (CacheAt E R tx'.cache tx'.log ∧
      ∀ px ∈ tx'.cache.dirty, hashesUnder E.layout px tx'.log ≠ []) ∧ ThreadAt E R tx' t (n.after th) from
    hci.set hth hts.returned_eq_false hes h.1.1 h.1.2 h.2
  cases hts
  case getCached rev ids fan sc _ _ _ hmiss =>
    have hpre : CacheAt E R w.tx.cache (w.tx.log ++ [.checked t true, .getNodes t]) :=
      hci.cache.append (by simp [Event.written])
    refine ⟨hci.quiet (by simp) (by rfl) (by simp [Event.written]), hold.1,
      w.tx.log ++ [.checked t true, .getNodes t], [], by simp, ?_⟩
    refine (hpre.nodes hL fun id hid => ?_).symm ▸ rfl
    simpa [hmiss] using SubtreeCache.held_or_missing E.layout (c := w.tx.cache) hid
  case getMissing rev ids fan sc _ _ _ _ =>
    exact ⟨hci.quiet (by simp) (by rfl) (by simp [Event.written]), hold.1, rfl,
      fun x hx => SubtreeCache.mem_missing E.layout hx, fun id hid => SubtreeCache.held_or_missing E.layout hid⟩
  case handlerReturn rev ids want fan hl =>
    obtain ⟨hrR, hids, hwant, hcover⟩ := hold
    obtain ⟨f, hf, hinv, -⟩ := hw.getInv t _ hth
    cases hf
    rw [hrR] at hinv
    obtain ⟨hdone, hperm⟩ := (hinv.returned hl).ok_result rfl
    have hpop : CacheAt E R (w.tx.cache.populate E.layout want fan.ret) w.tx.log := by
      refine hci.cache.populate hL (fun x hx => ?_) (fun x hx => ?_) (fun s => ?_)
      · obtain ⟨hn, id, -, hx'⟩ := hwant x hx
        exact ⟨hwi.hashesUnder_eq_nil hn, id, hx'⟩
      · obtain ⟨j, hj⟩ := List.mem_iff_getElem?.1 (hids ▸ List.mem_map_of_mem Prod.snd hx)
        obtain ⟨st, -, hst⟩ := hdone j _ hj
        exact ⟨st, hst⟩
      · simp [hperm.mem_iff, hids, okSubtree_eq_some]
    refine ⟨⟨hpop.append (show [Event.returned t].filterMap Event.written = [] from rfl), fun px hpx => ?_⟩,
      hrR, w.tx.log, [], rfl, ?_⟩
    · simp [hci.dirty px (by simpa using hpx)]
    · refine hpop.nodes hL fun id hid => ?_
      rcases hcover id hid with h | ⟨x, hx, hpx⟩
      · exact (SubtreeCache.grows_populate _ _ _ _).held _ h
      · exact hpx ▸ SubtreeCache.held_populate _ hx
  case setHit nodes rest n' wr st hl _ =>
    exact ⟨⟨hci.cache.setNode t n', dirty_setNode hci.dirty t n'⟩, trivial⟩
  case load nodes rest n' wr st hget =>
    have hwr : wrapInt64 (wr - 1) = R := hR _ (by simp [readRevs, reachesRead_of_getSubtree hget])
    have hst : E.storedAt R (E.layout.subtreeID n'.NodeID) =
        some (st.getD (E.layout.empty (E.layout.subtreeID n'.NodeID))) := by
      rw [← hwr]
      simp [Env.storedAt, getSubtree_of_tx hw.lockInv.phase.stx_cases hget]
    have hread : CacheAt E R w.tx.cache
        (w.tx.logRead t (wrapInt64 (wr - 1)) (E.layout.subtreeID n'.NodeID)).log :=
      hci.cache.append (by split <;> simp [Event.written])
    refine ⟨⟨(hread.insert ?_ ⟨n'.NodeID, rfl, hst⟩).setNode t n', dirty_setNode (fun px hpx => ?_) t n'⟩, trivial⟩
    · rw [TX.logRead_log, hashesUnder_append, hwi.hashesUnder_eq_nil hold]
      split <;> rfl
    · simp [hci.dirty px (by simpa using hpx)]
  all_goals
    (try cases ‹LockedStep _ _ _ _ _ _ _ _›) <;>
    (try rcases TX.getLatestRoot_ok ‹_› with ⟨-, rfl⟩ | ⟨-, -, rfl⟩) <;>
    exact ⟨hci.quiet (by simp) (by rfl) (by simp [Event.written, List.filterMap_map]),
      by first | trivial | exact hold | exact ⟨hold.1, trivial⟩⟩

end Step

theorem CacheInv.fetch_step {w : World} (hci : CacheInv E R w.tx w.threads) {th : Thread}
    (hth : w.threads[t]? = some th) {j : Nat} {n : Next} (hfs : FetchStep E t j th w.tx tx' n) :
    CacheInv E R tx' (w.threads.set t (n.after th)) := by
  obtain ⟨es, hes, -⟩ := hfs.log_extends
  have hsame : tx'.cache = w.tx.cache := by
    rcases hfs.effects.1 with rfl | ⟨_, _, rfl⟩ <;> rfl
  have hq := hci.quiet ⟨es, hes.symm⟩ hsame (by
    rcases hfs.effects.1 with rfl | ⟨_, _, rfl⟩
    · simp
    · simp only [TX.logRead_log, List.drop_left]; split <;> simp [Event.written])
  obtain ⟨rev, ids, pc, f, f', rfl, hafter, hids⟩ := hfs.after
  have hold := hci.threads t _ hth
  have hret : (Thread.getMerkleNodes rev ids pc (some f')).returned =
      (Thread.getMerkleNodes rev ids pc (some f)).returned := by
    cases pc <;> rfl
  rw [hafter]
  refine ⟨fun i thi hi hri => ?_, hq.1, hq.2, fun i thi hi => ?_⟩ <;>
    rcases getElem?_set_of hi with ⟨rfl, rfl⟩ | ⟨-, hi⟩
  · simpa using hci.last i _ hth (hret ▸ hri)
  · simpa using hci.last i thi hi hri
  · exact ⟨hold.1, hold.2.frame hsame hes (by simp [hids])⟩
  · exact (hci.threads i thi hi).frame hsame hes

theorem CacheInv.call_step {ths : List Thread} (hci : CacheInv E R tx ths)
    (hret : ∀ th ∈ ths, th.returned = true) (c : Call) (hc : ∀ r ids, c = .getMerkleNodes r ids → r = R) :
    CacheInv E R tx (ths ++ [c.start]) := by
  refine ⟨fun i th hi hr => ?_, hci.cache, hci.dirty, fun i th hi => ?_⟩ <;>
    rcases getElem?_append_singleton hi with hi | ⟨rfl, rfl⟩
  · simp [hret th (List.mem_iff_getElem?.2 ⟨i, hi⟩)] at hr
  · simp
  · exact hci.threads i th hi
  · cases c <;> first | trivial | exact ⟨hc _ _ rfl, trivial⟩

theorem CacheInv.init : CacheInv E R (TX.init E) [] :=
  ⟨fun _ _ h => by simp at h, fun _ _ h => by simp [TX.init, SubtreeCache.empty, SubtreeCache.lookup,
    SubtreeCache.find] at h, fun _ h => by simp [TX.init, SubtreeCache.empty] at h, fun _ _ h => by simp at h⟩

end Preservation

theorem Serial.cacheInv (hL : E.layout.Keyed) {w : World} (hw : Serial E R w) :
    (∀ rev ∈ readRevs w.tx.log, rev = R) → CacheInv E R w.tx w.threads := by
  induction hw with
  | init => exact fun _ => CacheInv.init
  | @step w₀ w₁ a hw hser hs ih =>
    intro hR
    have ih' : w₀.tx.log <+: w₁.tx.log → CacheInv E R w₀.tx w₀.threads := fun hpre =>
      ih fun rev h => hR rev ((hpre.filterMap _).subset h)
    cases a with
    | call c =>
      obtain ⟨-, rfl⟩ := step_call hs
      have hret : ∀ th ∈ w₀.threads, th.returned = true := by
        clear hR ih'
        cases c <;> simp_all [World.serialAt]
      exact (ih hR).call_step hret c fun r ids h => by
        subst h; exact (by simpa [World.serialAt] using hser : _ ∧ r = R).2
    | step t b =>
      obtain ⟨th, tx', n, hth, hts, rfl⟩ := step_thread hs
      obtain ⟨es, hes, -⟩ := hts.log_extends
      rw [World.apply_tx, World.apply_threads hth] at *
      exact (ih' ⟨es, hes.symm⟩).thread_step hL hw.reachable hth hts hR
    | fetch t j =>
      obtain ⟨th, tx', n, hth, hfs, rfl⟩ := step_fetch hs
      obtain ⟨es, hes, -⟩ := hfs.log_extends
      rw [World.apply_tx, World.apply_threads hth] at *
      exact (ih' ⟨es, hes.symm⟩).fetch_step hth hfs

/-! ### Reads through the cache -/

/-- Two serial calls on a read-only transaction: `GetMerkleNodes(5)` caches the subtree stored
at revision 5, with hash `[7]`, and `GetMerkleNodes(3)` then finds it in the cache and returns
that hash without a read, where the subtree stored at or below 3 has the hash `[6]`. -/
theorem getMerkleNodes_reads_cached_revision :
    ∃ w, Reachable (exampleEnv .readOnly) w ∧
      w.threads[1]? = some (.getMerkleNodes 3 [⟨.mk [1], 8⟩]
        (.done (some [⟨⟨.mk [1], 8⟩, .mk [7]⟩]) none) none) ∧
      w.tx.log = [.checked 0 true, .getNodes 0, .read 0 5 (some .readOnly), .returned 0,
        .checked 1 true, .getNodes 1, .returned 1] ∧
      (exampleEnv .readOnly).nodesAt 3 w.tx.log [⟨.mk [1], 8⟩] = [⟨⟨.mk [1], 8⟩, .mk [6]⟩] :=
  ⟨_, Reachable.run .init (Option.some_get (show (run (exampleEnv .readOnly)
    (World.init (exampleEnv .readOnly)) [.call (.getMerkleNodes 5 [⟨.mk [1], 8⟩]), .step 0 false,
      .fetch 0 0, .fetch 0 0, .step 0 false, .step 0 false, .call (.getMerkleNodes 3 [⟨.mk [1], 8⟩]),
      .step 1 false]).isSome by decide)).symm, by decide, by decide, by decide⟩

/-- In a serial run whose `GetMerkleNodes` calls all read at `R`, and whose reads of the backend,
the loader's included, are all at `R`: a `GetMerkleNodes` that returned nodes returned those of
the subtrees stored at `R` with the hashes logged before its return written into them, and a
subtree a `Commit` flushes is one stored at `R` with the hashes logged for its prefix before the
flush, at least one, written into it. -/
theorem getMerkleNodes_reads_revision_through_cache (hL : E.layout.Keyed) {w : World}
    (hw : Serial E R w) (hR : ∀ rev ∈ readRevs w.tx.log, rev = R) :
    (∀ (t : Nat) (rev : Int) (ids : List NodeID) (nodes : List Node) (fan : Option Fanout),
      w.threads[t]? = some (.getMerkleNodes rev ids (.done (some nodes) none) fan) →
      ∃ pre post, w.tx.log = pre ++ .returned t :: post ∧ nodes = E.nodesAt R pre ids) ∧
    ∀ (pre : List Event) (c : Nat) (sts : List SubtreeProto) (post : List Event),
      w.tx.log = pre ++ .flush c sts :: post →
      ∀ st ∈ sts, ∃ id, hashesUnder E.layout (E.layout.prefixOf id) pre ≠ [] ∧
        E.subtreeAt R pre id = some st := by
  have hci := hw.cacheInv hL hR
  have hwi := hw.reachable.writeInv
  refine ⟨fun t rev ids nodes fan hth => (hci.threads t _ hth).2, fun pre c sts post hlog st hst => ?_⟩
  have hpost : (Event.flush c sts :: post).filterMap Event.written = [] :=
    written_eq_nil fun t' n h => (List.mem_cons.1 h).elim (fun h => by cases h)
      (hwi.afterFlush pre c sts post hlog t' n)
  rw [hwi.flushed c sts (by simp [hlog])] at hst
  obtain ⟨px, hpx, hl⟩ := List.mem_filterMap.1 hst
  obtain ⟨-, ⟨id, rfl, -⟩, -⟩ := hci.cache _ st hl
  have hs := hci.cache.subtreeAt hL hl
  have hd := hci.dirty _ hpx
  rw [hlog, subtreeAt_append hpost] at hs
  rw [hlog, hashesUnder_append] at hd
  exact ⟨id, by simpa [hashesUnder, hpost] using hd, hs⟩

theorem exampleEnv_keyed (sc : Scope) : (exampleEnv sc).layout.Keyed where
  subtreeID_eq a b h := by simp_all [exampleEnv]
  key id key h := by
    simp only [exampleEnv, subtreeKey] at h
    split at h
    · cases h
    · split at h
      · cases h
        rw [ByteSlice.sliceTo_bytes ‹_›]
        simp [exampleEnv]
      · cases h

/-- On a read-write transaction whose head is at 4, the serial run `GetMerkleNodes(4)`, which
caches the subtree stored at revision 3, `SetMerkleNodes`, `GetMerkleNodes(4)` and `Commit`:
the second read returns the hash the write put into the cached subtree. -/
theorem getMerkleNodes_reads_revision_through_cache_example :
    ∃ w, Serial (exampleEnv .readWrite) 4 w ∧ (∀ rev ∈ readRevs w.tx.log, rev = 4) ∧
      w.threads[2]? = some (.getMerkleNodes 4 [⟨.mk [1], 8⟩]
        (.done (some [⟨⟨.mk [1], 8⟩, .mk [9]⟩]) none) none) ∧
      ∃ pre post, w.tx.log = pre ++ .returned 2 :: post ∧
        [⟨⟨.mk [1], 8⟩, .mk [9]⟩] = (exampleEnv .readWrite).nodesAt 4 pre [⟨.mk [1], 8⟩] := by
  have hw := Serial.run .init (Option.some_get (show (runSerial (exampleEnv .readWrite) 4
    (World.init (exampleEnv .readWrite)) [.call (.getMerkleNodes 4 [⟨.mk [1], 8⟩]), .step 0 false,
      .fetch 0 0, .fetch 0 0, .step 0 false, .step 0 false,
      .call (.setMerkleNodes [⟨⟨.mk [1], 8⟩, .mk [9]⟩]), .step 1 false, .step 1 false,
      .step 1 false, .step 1 false, .call (.getMerkleNodes 4 [⟨.mk [1], 8⟩]), .step 2 false,
      .call .commit, .step 3 false, .step 3 false, .step 3 false]).isSome by decide)).symm
  refine ⟨_, hw, ?hR, ?hth, (getMerkleNodes_reads_revision_through_cache (exampleEnv_keyed _) hw ?hR).1
    2 4 _ _ _ ?hth⟩
  case hth => decide
  case hR => decide

end TrillianSpanner
