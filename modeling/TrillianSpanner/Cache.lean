import TrillianSpanner.SubtreeData

/-! The subtree cache a tree transaction reads and writes nodes through. Its code lies outside
the sources; it is modelled from the spec as a per-transaction map from subtree prefix to
subtree that calls the miss handler only for the subtrees it does not hold. -/

namespace TrillianSpanner

structure Node where
  NodeID : NodeID
  Hash : ByteSlice
  deriving DecidableEq, Repr

/-- Modelled from the spec: how the subtree cache places nodes in subtrees. `subtreeID` is the
id of the subtree holding a node (what the miss handler and loader are given), `prefixOf` the
prefix the cache files that subtree under, `hashIn` and `setHash` read and write a node's hash
in its subtree, and `empty` is the subtree made for a prefix never written. -/
structure NodeLayout where
  subtreeID : NodeID → NodeID
  prefixOf : NodeID → List UInt8
  hashIn : SubtreeProto → NodeID → Option ByteSlice
  setHash : SubtreeProto → NodeID → ByteSlice → SubtreeProto
  empty : NodeID → SubtreeProto

/-- Modelled from the spec: the per-transaction subtree cache, a map from subtree prefix to
subtree (newest entry first), and the prefixes `SetNodeHash` has written to. -/
structure SubtreeCache where
  subtrees : List (List UInt8 × SubtreeProto)
  dirty : List (List UInt8)
  deriving DecidableEq, Repr

namespace SubtreeCache

def empty : SubtreeCache := ⟨[], []⟩

def find (px : List UInt8) : List (List UInt8 × SubtreeProto) → Option SubtreeProto
  | [] => none
  | (k, st) :: rest => if k = px then some st else find px rest

def lookup (c : SubtreeCache) (px : List UInt8) : Option SubtreeProto := find px c.subtrees

def insert (c : SubtreeCache) (px : List UInt8) (st : SubtreeProto) : SubtreeCache :=
  { c with subtrees := (px, st) :: c.subtrees }

variable (L : NodeLayout)

def wantStep (c : SubtreeCache) (want : List (List UInt8 × NodeID)) (id : NodeID) :
    List (List UInt8 × NodeID) :=
  if (c.lookup (L.prefixOf id)).isSome ∨ want.any (·.1 = L.prefixOf id) then want
  else want ++ [(L.prefixOf id, L.subtreeID id)]

def missing (c : SubtreeCache) (ids : List NodeID) : List (List UInt8 × NodeID) :=
  ids.foldl (c.wantStep L) []

def populate (c : SubtreeCache) (want : List (List UInt8 × NodeID)) (sts : List SubtreeProto) :
    SubtreeCache :=
  (want.filter fun w => sts.all fun st => st.Prefix.bytes ≠ w.1).foldl
    (fun c w => c.insert w.1 (L.empty w.2)) (sts.foldl (fun c st => c.insert st.Prefix.bytes st) c)

def nodes (c : SubtreeCache) (ids : List NodeID) : List Node :=
  ids.filterMap fun id => ((c.lookup (L.prefixOf id)).bind (L.hashIn · id)).map (⟨id, ·⟩)

def setNode (c : SubtreeCache) (n : Node) : SubtreeCache :=
  match c.lookup (L.prefixOf n.NodeID) with
  | some st =>
    ⟨(L.prefixOf n.NodeID, L.setHash st n.NodeID n.Hash) :: c.subtrees,
      if L.prefixOf n.NodeID ∈ c.dirty then c.dirty else c.dirty ++ [L.prefixOf n.NodeID]⟩
  | none => c

def dirtySubtrees (c : SubtreeCache) : List SubtreeProto := c.dirty.filterMap c.lookup

@[simp] theorem lookup_insert (c : SubtreeCache) (px q : List UInt8) (st : SubtreeProto) :
    (c.insert px st).lookup q = if px = q then some st else c.lookup q := by
  simp [insert, lookup, find]

@[simp] theorem insert_dirty (c : SubtreeCache) (px : List UInt8) (st : SubtreeProto) :
    (c.insert px st).dirty = c.dirty := rfl

theorem setNode_dirty_of_lookup {c : SubtreeCache} {n : Node} {st : SubtreeProto}
    (h : c.lookup (L.prefixOf n.NodeID) = some st) :
    L.prefixOf n.NodeID ∈ (c.setNode L n).dirty := by
  simp only [setNode, h]
  split <;> simp_all

structure Grows (c c' : SubtreeCache) : Prop where
  held : ∀ px, (c.lookup px).isSome → (c'.lookup px).isSome
  dirty : ∀ px ∈ c.dirty, px ∈ c'.dirty
  newDirty : ∀ px ∈ c'.dirty, px ∈ c.dirty ∨ (c'.lookup px).isSome

theorem Grows.refl (c : SubtreeCache) : Grows c c := ⟨fun _ h => h, fun _ h => h, fun _ h => .inl h⟩

theorem Grows.trans {c₁ c₂ c₃ : SubtreeCache} (h₁ : Grows c₁ c₂) (h₂ : Grows c₂ c₃) : Grows c₁ c₃ :=
  ⟨fun px h => h₂.held px (h₁.held px h), fun px h => h₂.dirty px (h₁.dirty px h), fun px h =>
    (h₂.newDirty px h).elim (fun h => (h₁.newDirty px h).imp_right (h₂.held px)) .inr⟩

theorem grows_insert (c : SubtreeCache) (px : List UInt8) (st : SubtreeProto) :
    Grows c (c.insert px st) :=
  ⟨fun q h => by rw [lookup_insert]; split <;> simp_all, fun _ h => h, fun _ h => .inl h⟩

theorem grows_setNode (c : SubtreeCache) (n : Node) : Grows c (c.setNode L n) := by
  unfold setNode
  split
  · refine ⟨fun q h => ?_, fun q h => ?_, fun q h => ?_⟩
    · simp only [lookup, find]; split <;> simp_all [lookup]
    · split <;> simp_all
    · by_cases hq : q = L.prefixOf n.NodeID
      · exact .inr (by simp [hq, lookup, find])
      · exact .inl (by split at h <;> simp_all)
  · exact .refl c

theorem grows_foldl {α : Type} {g : SubtreeCache → α → SubtreeCache} (hg : ∀ c x, Grows c (g c x)) :
    ∀ (l : List α) (c : SubtreeCache), Grows c (l.foldl g c)
  | [], c => .refl c
  | x :: l, c => (hg c x).trans (grows_foldl hg l (g c x))

theorem foldl_dirty {α : Type} {g : SubtreeCache → α → SubtreeCache}
    (hg : ∀ c x, (g c x).dirty = c.dirty) : ∀ (l : List α) (c : SubtreeCache), (l.foldl g c).dirty = c.dirty
  | [], _ => rfl
  | x :: l, c => (foldl_dirty hg l (g c x)).trans (hg c x)

theorem grows_populate (c : SubtreeCache) (want : List (List UInt8 × NodeID))
    (sts : List SubtreeProto) : Grows c (c.populate L want sts) :=
  (grows_foldl (fun c st => grows_insert c _ st) sts c).trans
    (grows_foldl (fun c (w : List UInt8 × NodeID) => grows_insert c w.1 _) _ _)

@[simp] theorem populate_dirty (c : SubtreeCache) (want : List (List UInt8 × NodeID))
    (sts : List SubtreeProto) : (c.populate L want sts).dirty = c.dirty := by
  unfold populate
  refine (foldl_dirty ?_ _ _).trans (foldl_dirty ?_ _ _) <;> intros <;> rfl

@[simp] theorem lookup_setNode (c : SubtreeCache) (n : Node) (q : List UInt8) :
    (c.setNode L n).lookup q =
      if L.prefixOf n.NodeID = q then (c.lookup q).map (L.setHash · n.NodeID n.Hash) else c.lookup q := by
  unfold setNode
  split <;> by_cases hq : L.prefixOf n.NodeID = q <;> simp_all [lookup, find]

theorem mem_foldl_wantStep {c : SubtreeCache} : ∀ {ids : List NodeID}
    {want : List (List UInt8 × NodeID)} {x : List UInt8 × NodeID}, x ∈ ids.foldl (c.wantStep L) want →
      x ∈ want ∨ c.lookup x.1 = none ∧ ∃ id ∈ ids, x = (L.prefixOf id, L.subtreeID id)
  | [], _, _, h => .inl h
  | id :: ids, want, x, h => by
    have h : x ∈ ids.foldl (c.wantStep L) (c.wantStep L want id) := h
    rcases mem_foldl_wantStep h with h | ⟨hn, id', hid', rfl⟩
    · unfold wantStep at h
      split at h
      · exact .inl h
      · rcases List.mem_append.1 h with h | h
        · exact .inl h
        · obtain rfl := List.mem_singleton.1 h
          exact .inr ⟨by simp_all, id, List.mem_cons_self _ _, rfl⟩
    · exact .inr ⟨hn, id', List.mem_cons_of_mem _ hid', rfl⟩

theorem length_foldl_wantStep {c : SubtreeCache} : ∀ {ids : List NodeID}
    {want : List (List UInt8 × NodeID)}, (ids.foldl (c.wantStep L) want).length ≤ want.length + ids.length
  | [], _ => le_refl _
  | id :: ids, want => by
    have h : (c.wantStep L want id).length ≤ want.length + 1 := by
      unfold wantStep; split <;> simp
    have := @length_foldl_wantStep c ids (c.wantStep L want id)
    simp only [List.foldl_cons, List.length_cons]
    omega

theorem length_missing_le (c : SubtreeCache) (ids : List NodeID) :
    (c.missing L ids).length ≤ ids.length := by
  simpa using @length_foldl_wantStep L c ids []

theorem subset_foldl_wantStep {c : SubtreeCache} : ∀ {ids : List NodeID}
    {want : List (List UInt8 × NodeID)} {x : List UInt8 × NodeID}, x ∈ want →
      x ∈ ids.foldl (c.wantStep L) want
  | [], _, _, h => h
  | id :: ids, want, x, h =>
    have h' : x ∈ c.wantStep L want id := by unfold wantStep; split <;> simp [h]
    @subset_foldl_wantStep c ids _ x h'

theorem covered_foldl_wantStep {c : SubtreeCache} : ∀ {ids : List NodeID}
    {want : List (List UInt8 × NodeID)} {id : NodeID}, id ∈ ids →
      (c.lookup (L.prefixOf id)).isSome ∨ ∃ x ∈ ids.foldl (c.wantStep L) want, x.1 = L.prefixOf id
  | a :: ids, want, id, h => by
    show _ ∨ ∃ x ∈ ids.foldl (c.wantStep L) (c.wantStep L want a), _
    rcases List.mem_cons.1 h with h | h
    · subst h
      by_cases hc : (c.lookup (L.prefixOf id)).isSome ∨ want.any (·.1 = L.prefixOf id)
      · refine hc.imp_right fun hw => ?_
        obtain ⟨x, hx, hx1⟩ := List.any_eq_true.1 hw
        exact ⟨x, subset_foldl_wantStep L (by simpa only [wantStep, if_pos hc] using hx),
          by simpa using hx1⟩
      · exact .inr ⟨(L.prefixOf id, L.subtreeID id),
          subset_foldl_wantStep L (by rw [wantStep, if_neg hc]; simp), rfl⟩
    · exact covered_foldl_wantStep h

theorem mem_missing {c : SubtreeCache} {ids : List NodeID} {x : List UInt8 × NodeID}
    (h : x ∈ c.missing L ids) : c.lookup x.1 = none ∧ ∃ id ∈ ids, x = (L.prefixOf id, L.subtreeID id) :=
  (mem_foldl_wantStep L h).resolve_left (List.not_mem_nil _)

theorem held_or_missing {c : SubtreeCache} {ids : List NodeID} {id : NodeID} (h : id ∈ ids) :
    (c.lookup (L.prefixOf id)).isSome ∨ ∃ x ∈ c.missing L ids, x.1 = L.prefixOf id :=
  covered_foldl_wantStep L h

theorem held_foldl_insert {α : Type} (k : α → List UInt8) (v : α → SubtreeProto) :
    ∀ {l : List α} {c : SubtreeCache} {a : α}, a ∈ l →
      ((l.foldl (fun c a => c.insert (k a) (v a)) c).lookup (k a)).isSome
  | x :: l, c, a, h => by
    rcases List.mem_cons.1 h with rfl | h
    · exact (grows_foldl (fun c a => grows_insert c (k a) (v a)) l _).held _ (by simp)
    · exact held_foldl_insert k v (l := l) h

theorem held_populate {c : SubtreeCache} {want : List (List UInt8 × NodeID)} {sts : List SubtreeProto}
    {x : List UInt8 × NodeID} (hx : x ∈ want) : ((c.populate L want sts).lookup x.1).isSome := by
  unfold populate
  by_cases hc : ∃ st ∈ sts, st.Prefix.bytes = x.1
  · obtain ⟨st, hst, hpx⟩ := hc
    refine (grows_foldl (fun c (w : List UInt8 × NodeID) => grows_insert c w.1 _) _ _).held _ ?_
    rw [← hpx]
    exact held_foldl_insert (fun st => st.Prefix.bytes) id hst
  · exact held_foldl_insert Prod.fst (fun w => L.empty w.2)
      (List.mem_filter.2 ⟨hx, by simpa using fun st hst h => hc ⟨st, hst, h⟩⟩)

theorem mem_dirtySubtrees {c : SubtreeCache} {px : List UInt8} {st : SubtreeProto}
    (hd : px ∈ c.dirty) (hl : c.lookup px = some st) : st ∈ c.dirtySubtrees :=
  List.mem_filterMap.2 ⟨px, hd, hl⟩

end SubtreeCache

end TrillianSpanner
