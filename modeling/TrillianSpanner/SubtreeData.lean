import TrillianSpanner.Subtree
import Mathlib.Data.List.Nodup
import Mathlib.Data.List.Sort

/-! The `SubtreeData` table as the commits of read-write tree transactions leave it, and what
`getSubtree` reads back out of it. -/

namespace TrillianSpanner

inductive Scope
  | readOnly
  | readWrite
  | other
  deriving DecidableEq, Repr

structure SubtreeDataRow where
  TreeID : Int
  SubtreeID : ByteSlice
  Revision : Int
  Subtree : List UInt8
  deriving DecidableEq, Repr

def SubtreeDataRow.key (r : SubtreeDataRow) : Int × List UInt8 × Int :=
  (r.TreeID, r.SubtreeID.bytes, r.Revision)

section Store

variable (marshal : SubtreeProto → Except Nat (List UInt8)) (bufferWrite : SubtreeDataRow → Option Nat)
  (treeID writeRev : Int)

def bufferSubtrees : List (Option SubtreeProto) → List SubtreeDataRow × Option Error
  | [] => ([], none)
  | none :: sts => bufferSubtrees sts
  | some st :: sts =>
    match marshal st with
    | .error e => ([], some (.encode e))
    | .ok stBytes =>
      match bufferWrite ⟨treeID, st.Prefix, writeRev, stBytes⟩ with
      | some e => ([], some (.spanner e))
      | none =>
        match bufferSubtrees sts with
        | (ms, err) => (⟨treeID, st.Prefix, writeRev, stBytes⟩ :: ms, err)

def storeSubtrees (stx : Option Scope) (sts : List (Option SubtreeProto)) :
    List SubtreeDataRow × Option Error :=
  if stx = some .readWrite then bufferSubtrees marshal bufferWrite treeID writeRev sts
  else ([], some .wrongTXType)

theorem bufferSubtrees_mem {sts : List (Option SubtreeProto)} {ms : List SubtreeDataRow}
    {err : Option Error} (h : bufferSubtrees marshal bufferWrite treeID writeRev sts = (ms, err)) :
    ∀ r ∈ ms, ∃ st, some st ∈ sts ∧ marshal st = .ok r.Subtree ∧
      r = ⟨treeID, st.Prefix, writeRev, r.Subtree⟩ := by
  induction sts generalizing ms err with
  | nil => cases h; simp
  | cons o sts ih =>
    cases o with
    | none =>
      intro r hr
      obtain ⟨st, hst, hrest⟩ := ih h r hr
      exact ⟨st, List.mem_cons_of_mem _ hst, hrest⟩
    | some st =>
      simp only [bufferSubtrees] at h
      cases hm : marshal st with
      | error e =>
        simp only [hm, Prod.mk.injEq] at h
        simp [← h.1]
      | ok bs =>
        cases hw : bufferWrite ⟨treeID, st.Prefix, writeRev, bs⟩ with
        | some e =>
          simp only [hm, hw, Prod.mk.injEq] at h
          simp [← h.1]
        | none =>
          cases hb : bufferSubtrees marshal bufferWrite treeID writeRev sts with
          | mk ms' err' =>
            simp only [hm, hw, hb, Prod.mk.injEq] at h
            obtain ⟨rfl, rfl⟩ := h
            intro r hr
            rcases List.mem_cons.mp hr with rfl | hr
            · exact ⟨st, List.mem_cons_self _ _, hm, rfl⟩
            · obtain ⟨st', hst', hrest⟩ := ih hb r hr
              exact ⟨st', List.mem_cons_of_mem _ hst', hrest⟩

end Store

structure FlushedTX where
  treeID : Int
  writeRev : Int
  subtrees : List (Option SubtreeProto)

def insertRows (tbl ms : List SubtreeDataRow) : List SubtreeDataRow :=
  if ((tbl ++ ms).map SubtreeDataRow.key).Nodup then tbl ++ ms else tbl

section History

variable (marshal : SubtreeProto → Except Nat (List UInt8)) (bufferWrite : SubtreeDataRow → Option Nat)

def commitFlush (tbl : List SubtreeDataRow) (f : FlushedTX) : List SubtreeDataRow :=
  match storeSubtrees marshal bufferWrite f.treeID f.writeRev (some .readWrite) f.subtrees with
  | (ms, none) => insertRows tbl ms
  | (_, some _) => tbl

def tableOf (hist : List FlushedTX) : List SubtreeDataRow := hist.foldl (commitFlush marshal bufferWrite) []

def InsertedBy (hist : List FlushedTX) (tbl : List SubtreeDataRow) : Prop :=
  ∀ r ∈ tbl, ∃ f ∈ hist, ∃ st, some st ∈ f.subtrees ∧ marshal st = .ok r.Subtree ∧
    r = ⟨f.treeID, st.Prefix, f.writeRev, r.Subtree⟩

variable {marshal bufferWrite}

theorem commitFlush_insertedBy {hist : List FlushedTX} {tbl : List SubtreeDataRow}
    {f : FlushedTX} (h : InsertedBy marshal hist tbl) (hf : f ∈ hist) :
    InsertedBy marshal hist (commitFlush marshal bufferWrite tbl f) := by
  unfold commitFlush
  split
  · rename_i ms hs
    unfold insertRows
    split
    · intro r hr
      rcases List.mem_append.mp hr with hr | hr
      · exact h r hr
      · simp only [storeSubtrees, if_pos rfl] at hs
        obtain ⟨st, hst, hm, hr⟩ := bufferSubtrees_mem marshal bufferWrite f.treeID f.writeRev hs r hr
        exact ⟨f, hf, st, hst, hm, hr⟩
    · exact h
  · exact h

theorem commitFlush_nodup {tbl : List SubtreeDataRow} (f : FlushedTX)
    (h : (tbl.map SubtreeDataRow.key).Nodup) :
    ((commitFlush marshal bufferWrite tbl f).map SubtreeDataRow.key).Nodup := by
  unfold commitFlush insertRows
  split
  · split
    · assumption
    · exact h
  · exact h

theorem foldl_commitFlush_insertedBy {hist : List FlushedTX} :
    ∀ (rest : List FlushedTX) (tbl : List SubtreeDataRow), (∀ f ∈ rest, f ∈ hist) →
      InsertedBy marshal hist tbl → InsertedBy marshal hist (rest.foldl (commitFlush marshal bufferWrite) tbl)
  | [], _, _, h => h
  | f :: rest, _, hsub, h =>
    foldl_commitFlush_insertedBy rest _ (fun g hg => hsub g (List.mem_cons_of_mem f hg))
      (commitFlush_insertedBy h (hsub f (List.mem_cons_self f rest)))

theorem foldl_commitFlush_nodup :
    ∀ (rest : List FlushedTX) (tbl : List SubtreeDataRow), (tbl.map SubtreeDataRow.key).Nodup →
      ((rest.foldl (commitFlush marshal bufferWrite) tbl).map SubtreeDataRow.key).Nodup
  | [], _, h => h
  | f :: rest, _, h => foldl_commitFlush_nodup rest _ (commitFlush_nodup f h)

theorem tableOf_insertedBy (hist : List FlushedTX) :
    InsertedBy marshal hist (tableOf marshal bufferWrite hist) :=
  foldl_commitFlush_insertedBy hist [] (fun _ h => h) (by simp [InsertedBy])

theorem tableOf_nodup (hist : List FlushedTX) :
    ((tableOf marshal bufferWrite hist).map SubtreeDataRow.key).Nodup :=
  foldl_commitFlush_nodup hist [] List.nodup_nil

theorem commitFlush_append (tbl : List SubtreeDataRow) (f : FlushedTX) :
    ∃ ms, commitFlush marshal bufferWrite tbl f = tbl ++ ms ∧ ∀ r ∈ ms, r.Revision = f.writeRev := by
  have hnil : tbl = tbl ++ [] := (List.append_nil tbl).symm
  unfold commitFlush insertRows
  split
  · rename_i ms hs
    simp only [storeSubtrees, if_pos rfl] at hs
    split
    · refine ⟨ms, rfl, fun r hr => ?_⟩
      obtain ⟨st, -, -, hr⟩ := bufferSubtrees_mem marshal bufferWrite _ _ hs r hr
      rw [hr]
    · exact ⟨[], hnil, by simp⟩
  · exact ⟨[], hnil, by simp⟩

theorem foldl_commitFlush_above {rev : Int} :
    ∀ (later : List FlushedTX) (tbl : List SubtreeDataRow), (∀ f ∈ later, rev < f.writeRev) →
      ∃ ms, later.foldl (commitFlush marshal bufferWrite) tbl = tbl ++ ms ∧ ∀ r ∈ ms, rev < r.Revision
  | [], tbl, _ => ⟨[], (List.append_nil tbl).symm, by simp⟩
  | f :: later, tbl, h => by
    obtain ⟨ms, hms, hrev⟩ := commitFlush_append tbl f
    obtain ⟨ms', hms', hrev'⟩ :=
      foldl_commitFlush_above later _ fun g hg => h g (List.mem_cons_of_mem f hg)
    refine ⟨ms ++ ms', by rw [List.foldl_cons, hms', hms, List.append_assoc], fun r hr => ?_⟩
    rcases List.mem_append.mp hr with hr | hr
    · exact hrev r hr ▸ h f (List.mem_cons_self f later)
    · exact hrev' r hr

theorem tableOf_append_above (hist later : List FlushedTX) {rev : Int}
    (h : ∀ f ∈ later, rev < f.writeRev) :
    ∃ ms, tableOf marshal bufferWrite (hist ++ later) = tableOf marshal bufferWrite hist ++ ms ∧ ∀ r ∈ ms, rev < r.Revision := by
  rw [tableOf, List.foldl_append]
  exact foldl_commitFlush_above later _ h

end History

section Read

def rowsUnder (tbl : List SubtreeDataRow) (treeID : Int) (key : List UInt8) : List SubtreeRow :=
  (tbl.filter fun r => r.TreeID = treeID ∧ r.SubtreeID.bytes = key).map
    fun r => ⟨r.Revision, r.Subtree⟩

def ServesKeyPrefix (tbl : List SubtreeDataRow) (treeID : Int)
    (read : List UInt8 → RowStream SubtreeRow) : Prop :=
  ∀ key, (read key).stop = none ∧ (read key).rows.Perm (rowsUnder tbl treeID key) ∧
    (read key).rows.Pairwise fun a b => b.Revision ≤ a.Revision

def keyOrderRead (tbl : List SubtreeDataRow) (treeID : Int) (key : List UInt8) :
    RowStream SubtreeRow :=
  ⟨(rowsUnder tbl treeID key).mergeSort fun a b => decide (b.Revision ≤ a.Revision), none⟩

theorem keyOrderRead_serves (tbl : List SubtreeDataRow) (treeID : Int) :
    ServesKeyPrefix tbl treeID (keyOrderRead tbl treeID) := by
  intro key
  refine ⟨rfl, List.mergeSort_perm _ _, ?_⟩
  simpa using @List.sorted_mergeSort SubtreeRow (fun a b => decide (b.Revision ≤ a.Revision))
    (fun a b c h₁ h₂ => by simp only [decide_eq_true_eq] at *; omega)
    (fun a b => by simp only [Bool.or_eq_true, decide_eq_true_eq]; omega) (rowsUnder tbl treeID key)

variable {tbl : List SubtreeDataRow} {treeID : Int} {key : List UInt8}

theorem mem_rowsUnder {x : SubtreeRow} :
    x ∈ rowsUnder tbl treeID key ↔
      ∃ r ∈ tbl, r.TreeID = treeID ∧ r.SubtreeID.bytes = key ∧ x = ⟨r.Revision, r.Subtree⟩ := by
  simp only [rowsUnder, List.mem_map, List.mem_filter, decide_eq_true_eq]
  constructor
  · rintro ⟨r, ⟨hr, ht, hk⟩, rfl⟩; exact ⟨r, hr, ht, hk, rfl⟩
  · rintro ⟨r, hr, ht, hk, rfl⟩; exact ⟨r, ⟨hr, ht, hk⟩, rfl⟩

theorem rowsUnder_revisions_nodup (h : (tbl.map SubtreeDataRow.key).Nodup) :
    ((rowsUnder tbl treeID key).map SubtreeRow.Revision).Nodup := by
  have hinj := (List.nodup_map_iff_inj_on (h.of_map _)).mp h
  simp only [rowsUnder, List.map_map]
  refine List.Nodup.map_on ?_ ((h.of_map _).filter _)
  intro a ha b hb hab
  simp only [List.mem_filter, decide_eq_true_eq] at ha hb
  apply hinj a ha.1 b hb.1
  simp only [SubtreeDataRow.key, Function.comp, Prod.mk.injEq] at hab ⊢
  exact ⟨ha.2.1.trans hb.2.1.symm, ha.2.2.trans hb.2.2.symm, hab⟩

theorem ServesKeyPrefix.decreasing {read : List UInt8 → RowStream SubtreeRow}
    (hs : ServesKeyPrefix tbl treeID read) (h : (tbl.map SubtreeDataRow.key).Nodup) :
    (read key).rows.Pairwise fun a b => b.Revision < a.Revision := by
  obtain ⟨-, hperm, hsorted⟩ := hs key
  have hne : (read key).rows.Pairwise fun a b => a.Revision ≠ b.Revision :=
    List.pairwise_map.mp ((hperm.map _).nodup_iff.mpr (rowsUnder_revisions_nodup h))
  exact (hsorted.and hne).imp fun ⟨hle, hne⟩ => lt_of_le_of_ne hle (Ne.symm hne)

theorem rowsUnder_visible_append {ms : List SubtreeDataRow} {rev : Int}
    (h : ∀ r ∈ ms, rev < r.Revision) :
    (rowsUnder (tbl ++ ms) treeID key).filter (·.Revision ≤ rev) =
      (rowsUnder tbl treeID key).filter (·.Revision ≤ rev) := by
  rw [rowsUnder, List.filter_append, List.map_append, List.filter_append, ← rowsUnder,
    ← rowsUnder, List.append_right_eq_self, List.filter_eq_nil_iff]
  intro x hx
  obtain ⟨r, hr, -, -, rfl⟩ := mem_rowsUnder.mp hx
  simpa using h r hr

theorem ServesKeyPrefix.visible_eq {tbl' : List SubtreeDataRow}
    {read read' : List UInt8 → RowStream SubtreeRow} {rev : Int}
    (hs : ServesKeyPrefix tbl treeID read) (hs' : ServesKeyPrefix tbl' treeID read')
    (hn : (tbl.map SubtreeDataRow.key).Nodup) (hn' : (tbl'.map SubtreeDataRow.key).Nodup)
    (hv : (rowsUnder tbl' treeID key).filter (·.Revision ≤ rev) =
      (rowsUnder tbl treeID key).filter (·.Revision ≤ rev)) :
    (read' key).rows.filter (·.Revision ≤ rev) = (read key).rows.filter (·.Revision ≤ rev) := by
  have : IsAntisymm SubtreeRow fun a b => b.Revision < a.Revision :=
    ⟨fun _ _ h₁ h₂ => absurd (h₁.trans h₂) (lt_irrefl _)⟩
  refine List.eq_of_perm_of_sorted (((hs' key).2.1.filter _).trans ?_)
    ((hs'.decreasing hn').sublist (List.filter_sublist _))
    ((hs.decreasing hn).sublist (List.filter_sublist _))
  rw [hv]
  exact ((hs key).2.1.filter _).symm

end Read

theorem ServesKeyPrefix.inserted {marshal : SubtreeProto → Except Nat (List UInt8)}
    {bufferWrite : SubtreeDataRow → Option Nat} {hist : List FlushedTX} {treeID : Int} {read : List UInt8 → RowStream SubtreeRow}
    (hread : ServesKeyPrefix (tableOf marshal bufferWrite hist) treeID read) {key : List UInt8}
    {x : SubtreeRow} (hx : x ∈ (read key).rows) :
    ∃ f ∈ hist, ∃ st, some st ∈ f.subtrees ∧ marshal st = .ok x.Subtree ∧ f.treeID = treeID ∧
      st.Prefix.bytes = key ∧ x.Revision = f.writeRev ∧
      ⟨treeID, st.Prefix, f.writeRev, x.Subtree⟩ ∈ tableOf marshal bufferWrite hist := by
  obtain ⟨r, hr, ht, hk, rfl⟩ := mem_rowsUnder.mp (((hread key).2.1).mem_iff.mp hx)
  obtain ⟨f, hf, st, hst, hm, hrow⟩ := tableOf_insertedBy hist r hr
  have hrow' : r = ⟨treeID, st.Prefix, f.writeRev, r.Subtree⟩ := by
    rw [hrow] at ht ⊢; simp only at ht; rw [ht]
  refine ⟨f, hf, st, hst, hm, by rw [hrow] at ht; exact ht, ?_, by rw [hrow], hrow' ▸ hr⟩
  rw [← hk, hrow]

theorem ServesKeyPrefix.mem_of_table {tbl : List SubtreeDataRow} {treeID : Int}
    {read : List UInt8 → RowStream SubtreeRow} (hread : ServesKeyPrefix tbl treeID read)
    {r : SubtreeDataRow} (hr : r ∈ tbl) (ht : r.TreeID = treeID) :
    (⟨r.Revision, r.Subtree⟩ : SubtreeRow) ∈ (read r.SubtreeID.bytes).rows :=
  ((hread _).2.1).mem_iff.mpr (mem_rowsUnder.mpr ⟨r, hr, ht, rfl, rfl⟩)

/-- Versioned agreement of the `SubtreeData` store: after any history of read-write commits,
`getSubtree` at revision `rev` returns, up to nil versus empty byte slices, the subtree that
`storeSubtrees` inserted under the subtree key at the highest revision at or below `rev`, and
nil when there is none; it returns no error, so its prefix-mismatch check never fires. -/
theorem getSubtree_reads_latest_commit (marshal : SubtreeProto → Except Nat (List UInt8))
    (bufferWrite : SubtreeDataRow → Option Nat) (unmarshal : List UInt8 → Except Nat SubtreeProto)
    (hcodec : ∀ st bs, marshal st = .ok bs → ∃ st', unmarshal bs = .ok st' ∧ st'.onWire = st.onWire)
    (hist : List FlushedTX) (treeID : Int) (read : List UInt8 → RowStream SubtreeRow)
    (hread : ServesKeyPrefix (tableOf marshal bufferWrite hist) treeID read)
    (rev : Int) (id : NodeID) (key : ByteSlice) (hk : subtreeKey id = .ok (key, none)) :
    ((tableOf marshal bufferWrite hist).map SubtreeDataRow.key).Nodup ∧
    ∃ p, getSubtree unmarshal (some read) rev id = .ok (p, none) ∧
      (p = none ↔ ∀ r ∈ tableOf marshal bufferWrite hist, r.TreeID = treeID →
        r.SubtreeID.bytes = key.bytes → rev < r.Revision) ∧
      ∀ st', p = some st' → ∃ f ∈ hist, ∃ st, some st ∈ f.subtrees ∧ f.treeID = treeID ∧
        st.Prefix.bytes = key.bytes ∧ f.writeRev ≤ rev ∧ st'.onWire = st.onWire ∧
        (∃ bs, marshal st = .ok bs ∧ ⟨treeID, st.Prefix, f.writeRev, bs⟩ ∈ tableOf marshal bufferWrite hist) ∧
        ∀ r ∈ tableOf marshal bufferWrite hist, r.TreeID = treeID → r.SubtreeID.bytes = key.bytes →
          r.Revision ≤ rev → r.Revision ≤ f.writeRev := by
  have hnodup : ((tableOf marshal bufferWrite hist).map SubtreeDataRow.key).Nodup := tableOf_nodup hist
  have hstream : read key.bytes = ⟨(read key.bytes).rows, none⟩ := by
    obtain ⟨hstop, -⟩ := hread key.bytes
    cases h : read key.bytes; simp_all
  have hsel : getSubtree unmarshal (some read) rev id =
      .ok (selectSubtree unmarshal rev key (read key.bytes).rows) := by
    rw [getSubtree, hk]
    simp only
    rw [hstream, scanSubtreeRows_eq_selectSubtree (hread.decreasing hnodup)]
    intro x hx
    obtain ⟨f, -, st, -, hm, -⟩ := hread.inserted (mem_of_scanned hx)
    obtain ⟨st', hst', -⟩ := hcodec st _ hm
    exact ⟨st', hst'⟩
  refine ⟨hnodup, ?_⟩
  cases hnv : newestVisible rev (read key.bytes).rows with
  | none =>
    have hinv := newestVisible_eq_none.mp hnv
    refine ⟨none, by rw [hsel]; simp [selectSubtree, hnv], ?_, by simp⟩
    simp only [true_iff]
    intro r hr ht hkey
    exact hinv _ (hkey ▸ hread.mem_of_table hr ht)
  | some x =>
    obtain ⟨hx, hxv⟩ := newestVisible_mem hnv
    obtain ⟨f, hf, st, hst, hm, ht, hpre, hrev, hrow⟩ := hread.inserted hx
    obtain ⟨st₀, hdec, hwire⟩ := hcodec st _ hm
    have hpre₀ : st₀.Prefix.bytes = key.bytes := by
      rw [← hpre]; exact congrArg Prod.fst hwire
    refine ⟨some (withRootPrefix key st₀), ?_, ?_, ?_⟩
    · rw [hsel, selectSubtree_of_newestVisible hnv hdec hpre₀.symm]
    · simp only [reduceCtorEq, false_iff, not_forall, not_lt]
      exact ⟨_, hrow, rfl, hpre, hrev ▸ hxv⟩
    · rintro st' ⟨⟩
      refine ⟨f, hf, st, hst, ht, hpre, hrev ▸ hxv, by rw [withRootPrefix_onWire, hwire], ⟨_, hm, hrow⟩, ?_⟩
      intro r hr hrt hkey hrv
      rw [← hrev]
      exact newestVisible_max hnv _ (hkey ▸ hread.mem_of_table hr hrt) hrv

def exampleMarshal (st : SubtreeProto) : Except Nat (List UInt8) :=
  if st = ⟨.mk [3], 8, .nil, [], []⟩ then .ok [8, 3] else .error 0

theorem exampleMarshal_roundtrip (st : SubtreeProto) (bs : List UInt8)
    (h : exampleMarshal st = .ok bs) : ∃ st', exampleUnmarshal bs = .ok st' ∧ st'.onWire = st.onWire := by
  unfold exampleMarshal at h
  split at h
  · cases h; subst st; exact ⟨_, rfl, rfl⟩
  · cases h

/-- The spec's scenario: a commit at write revision 5 is seen by a read at 5 and not by one
at 4. -/
theorem getSubtree_sees_commit_from_its_revision :
    (∃ st', getSubtree exampleUnmarshal (some (keyOrderRead (tableOf exampleMarshal (fun _ => none)
        [⟨1, 5, [some ⟨.mk [3], 8, .nil, [], []⟩]⟩]) 1)) 5 ⟨.mk [3, 9], 8⟩ = .ok (some st', none) ∧
      st'.onWire = (⟨.mk [3], 8, .nil, [], []⟩ : SubtreeProto).onWire) ∧
    getSubtree exampleUnmarshal (some (keyOrderRead (tableOf exampleMarshal (fun _ => none)
        [⟨1, 5, [some ⟨.mk [3], 8, .nil, [], []⟩]⟩]) 1)) 4 ⟨.mk [3, 9], 8⟩ = .ok (none, none) := by
  constructor
  · obtain ⟨-, p, hp, hnone, hsome⟩ := getSubtree_reads_latest_commit exampleMarshal (fun _ => none)
      exampleUnmarshal exampleMarshal_roundtrip [⟨1, 5, [some ⟨.mk [3], 8, .nil, [], []⟩]⟩] 1 _
      (keyOrderRead_serves _ _) 5 ⟨.mk [3, 9], 8⟩ (.mk [3]) rfl
    obtain ⟨st', rfl⟩ := Option.ne_none_iff_exists'.mp (fun h => absurd (hnone.mp h) (by decide))
    obtain ⟨f, hf, st, hst, -, -, -, hwire, -⟩ := hsome st' rfl
    simp only [List.mem_singleton] at hf
    subst hf
    simp only [List.mem_singleton, Option.some.injEq] at hst
    subst hst
    exact ⟨st', hp, hwire⟩
  · obtain ⟨-, p, hp, hnone, -⟩ := getSubtree_reads_latest_commit exampleMarshal (fun _ => none)
      exampleUnmarshal exampleMarshal_roundtrip [⟨1, 5, [some ⟨.mk [3], 8, .nil, [], []⟩]⟩] 1 _
      (keyOrderRead_serves _ _) 4 ⟨.mk [3, 9], 8⟩ (.mk [3]) rfl
    rw [hp, hnone.mpr (by decide)]

theorem ServesKeyPrefix.scan_visible {unmarshal : List UInt8 → Except Nat SubtreeProto}
    {tbl : List SubtreeDataRow} {treeID rev : Int} {read : List UInt8 → RowStream SubtreeRow}
    (hs : ServesKeyPrefix tbl treeID read) {key : List UInt8} (stID : ByteSlice)
    (hdec : ∀ x ∈ (read key).rows, rev < x.Revision → ∃ st, unmarshal x.Subtree = .ok st) :
    scanSubtreeRows unmarshal rev stID (read key) =
      scanSubtreeRows unmarshal rev stID ⟨(read key).rows.filter (·.Revision ≤ rev), none⟩ := by
  rw [← scanSubtreeRows_filter_visible none hdec, ← (hs key).1]

/-- Snapshot stability of the `SubtreeData` store: commits at write revisions above `rev` never
change what `getSubtree` returns at `rev`, for any node id, when every subtree a commit stored
decodes. -/
theorem getSubtree_unchanged_by_later_commits (marshal : SubtreeProto → Except Nat (List UInt8))
    (bufferWrite : SubtreeDataRow → Option Nat) (unmarshal : List UInt8 → Except Nat SubtreeProto)
    (hdecode : ∀ st bs, marshal st = .ok bs → ∃ st', unmarshal bs = .ok st')
    (hist later : List FlushedTX) (rev : Int) (hlater : ∀ f ∈ later, rev < f.writeRev)
    (treeID : Int) (read read' : List UInt8 → RowStream SubtreeRow)
    (hread : ServesKeyPrefix (tableOf marshal bufferWrite hist) treeID read)
    (hread' : ServesKeyPrefix (tableOf marshal bufferWrite (hist ++ later)) treeID read') (id : NodeID) :
    getSubtree unmarshal (some read') rev id = getSubtree unmarshal (some read) rev id := by
  have hdec : ∀ {h : List FlushedTX} {rd : List UInt8 → RowStream SubtreeRow},
      ServesKeyPrefix (tableOf marshal bufferWrite h) treeID rd → ∀ key, ∀ x ∈ (rd key).rows,
        rev < x.Revision → ∃ st, unmarshal x.Subtree = .ok st := fun hs _ _ hx _ => by
    obtain ⟨f, -, st, -, hm, -⟩ := hs.inserted hx
    exact hdecode st _ hm
  obtain ⟨ms, htbl, hms⟩ := @tableOf_append_above marshal bufferWrite hist later rev hlater
  unfold getSubtree
  split
  next => rfl
  next => rfl
  next stID _ =>
    simp only
    rw [hread.scan_visible stID (hdec hread _), hread'.scan_visible stID (hdec hread' _),
      hread.visible_eq hread' (tableOf_nodup hist) (tableOf_nodup _)
        (htbl ▸ rowsUnder_visible_append hms)]

theorem getSubtree_at5_ignores_commit_at6 :
    (∀ f ∈ [(⟨1, 6, [some ⟨.mk [3], 8, .nil, [], []⟩]⟩ : FlushedTX)], (5 : Int) < f.writeRev) ∧
    getSubtree exampleUnmarshal
        (some (keyOrderRead (tableOf exampleMarshal (fun _ => none)
          ([⟨1, 5, [some ⟨.mk [3], 8, .nil, [], []⟩]⟩] ++ [⟨1, 6, [some ⟨.mk [3], 8, .nil, [], []⟩]⟩])) 1))
        5 ⟨.mk [3, 9], 8⟩ =
      getSubtree exampleUnmarshal (some (keyOrderRead (tableOf exampleMarshal (fun _ => none)
        [⟨1, 5, [some ⟨.mk [3], 8, .nil, [], []⟩]⟩]) 1)) 5 ⟨.mk [3, 9], 8⟩ :=
  ⟨by decide, getSubtree_unchanged_by_later_commits exampleMarshal (fun _ => none) exampleUnmarshal
    (fun st bs h => (exampleMarshal_roundtrip st bs h).imp fun _ h => h.1) _ _ 5 (by decide) 1 _ _
    (keyOrderRead_serves _ _) (keyOrderRead_serves _ _) _⟩

end TrillianSpanner
