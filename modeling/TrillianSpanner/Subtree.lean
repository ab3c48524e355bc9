import TrillianSpanner.Go

/-! Subtree keys and the revisioned subtree read of `treeTX.getSubtree`, with the selection
the spec asks of it: the stored row of highest revision at or below the read revision. -/

namespace TrillianSpanner

structure NodeID where
  Path : ByteSlice
  PrefixLenBits : Int
  deriving DecidableEq, Repr

structure SubtreeProto where
  Prefix : ByteSlice
  Depth : Int
  RootHash : ByteSlice
  Leaves : List (String × ByteSlice)
  InternalNodes : List (String × ByteSlice)
  deriving DecidableEq, Repr

def SubtreeProto.onWire (st : SubtreeProto) :
    List UInt8 × Int × List UInt8 × List (String × List UInt8) × List (String × List UInt8) :=
  (st.Prefix.bytes, st.Depth, st.RootHash.bytes, st.Leaves.map fun e => (e.1, e.2.bytes),
    st.InternalNodes.map fun e => (e.1, e.2.bytes))

structure SubtreeRow where
  Revision : Int
  Subtree : List UInt8
  deriving DecidableEq, Repr

def subtreeKey (id : NodeID) : Except GoPanic (ByteSlice × Option Error) :=
  if id.PrefixLenBits.tmod 8 ≠ 0 then
    .ok (.nil, some (.notSubtreePrefix id.PrefixLenBits))
  else
    match id.Path.sliceTo (id.PrefixLenBits.tdiv 8) with
    | some key => .ok (key, none)
    | none => .error (.sliceBounds (id.PrefixLenBits.tdiv 8))

def withRootPrefix (stID : ByteSlice) (st : SubtreeProto) : SubtreeProto :=
  if st.Prefix = .nil ∧ stID.bytes.length = 0 then { st with Prefix := .mk [] } else st

@[simp] theorem withRootPrefix_onWire (stID : ByteSlice) (st : SubtreeProto) :
    (withRootPrefix stID st).onWire = st.onWire := by
  unfold withRootPrefix
  split <;> simp_all [SubtreeProto.onWire]

section Scan

variable (unmarshal : List UInt8 → Except Nat SubtreeProto) (rev : Int) (stID : ByteSlice)

def getSubtreeRow (ret : Option SubtreeProto) (r : SubtreeRow) : Option SubtreeProto × Option Error :=
  match unmarshal r.Subtree with
  | .error e => (ret, some (.decode e))
  | .ok st =>
    if r.Revision > rev then (ret, none)
    else if !stID.equal st.Prefix then (ret, some (.prefixMismatch stID st.Prefix))
    else if r.Revision > rev then (ret, some (.revisionTooNew r.Revision rev))
    else (some (withRootPrefix stID st), some .finished)

def scanSubtreeRows (rows : RowStream SubtreeRow) : Option SubtreeProto × Option Error :=
  match doRows (getSubtreeRow unmarshal rev stID) none rows.rows rows.stop with
  | (ret, err) => (ret, if err = some .finished then none else err)

end Scan

def getSubtree (unmarshal : List UInt8 → Except Nat SubtreeProto)
    (stx : Option (List UInt8 → RowStream SubtreeRow)) (rev : Int) (id : NodeID) :
    Except GoPanic (Option SubtreeProto × Option Error) :=
  match subtreeKey id with
  | .error p => .error p
  | .ok (_, some e) => .ok (none, some e)
  | .ok (stID, none) =>
    match stx with
    | none => .error .nilDereference
    | some read => .ok (scanSubtreeRows unmarshal rev stID (read stID.bytes))

/-! ### The spec's selection -/

def newestVisible (rev : Int) : List SubtreeRow → Option SubtreeRow
  | [] => none
  | r :: rs =>
    match newestVisible rev rs with
    | none => if r.Revision ≤ rev then some r else none
    | some b => if r.Revision ≤ rev ∧ b.Revision < r.Revision then some r else some b

def scannedRows (rev : Int) : List SubtreeRow → List SubtreeRow
  | [] => []
  | r :: rs => if r.Revision ≤ rev then [r] else r :: scannedRows rev rs

def selectSubtree (unmarshal : List UInt8 → Except Nat SubtreeProto) (rev : Int) (stID : ByteSlice)
    (rows : List SubtreeRow) : Option SubtreeProto × Option Error :=
  match newestVisible rev rows with
  | none => (none, none)
  | some r =>
    match unmarshal r.Subtree with
    | .error e => (none, some (.decode e))
    | .ok st =>
      if stID.equal st.Prefix then (some (withRootPrefix stID st), none)
      else (none, some (.prefixMismatch stID st.Prefix))

section ScanLemmas

variable {unmarshal : List UInt8 → Except Nat SubtreeProto} {rev : Int} {stID : ByteSlice}

theorem scanSubtreeRows_nil (stop : Option Nat) :
    scanSubtreeRows unmarshal rev stID ⟨[], stop⟩ = (none, stop.map .spanner) := by
  cases stop <;> simp [scanSubtreeRows]

theorem scanSubtreeRows_cons_undecodable {r : SubtreeRow} {c : Nat}
    (h : unmarshal r.Subtree = .error c) (rs : List SubtreeRow) (stop : Option Nat) :
    scanSubtreeRows unmarshal rev stID ⟨r :: rs, stop⟩ = (none, some (.decode c)) := by
  simp [scanSubtreeRows, doRows, getSubtreeRow, h]

theorem scanSubtreeRows_cons_invisible {r : SubtreeRow} {st : SubtreeProto}
    (h : unmarshal r.Subtree = .ok st) (hr : rev < r.Revision) (rs : List SubtreeRow)
    (stop : Option Nat) :
    scanSubtreeRows unmarshal rev stID ⟨r :: rs, stop⟩ = scanSubtreeRows unmarshal rev stID ⟨rs, stop⟩ := by
  simp [scanSubtreeRows, doRows, getSubtreeRow, h, hr]

theorem scanSubtreeRows_cons_visible {r : SubtreeRow} {st : SubtreeProto}
    (h : unmarshal r.Subtree = .ok st) (hr : r.Revision ≤ rev) (rs : List SubtreeRow)
    (stop : Option Nat) :
    scanSubtreeRows unmarshal rev stID ⟨r :: rs, stop⟩ =
      if stID.equal st.Prefix then (some (withRootPrefix stID st), none)
      else (none, some (.prefixMismatch stID st.Prefix)) := by
  have hv : ¬ rev < r.Revision := by omega
  cases he : stID.equal st.Prefix <;> simp [scanSubtreeRows, doRows, getSubtreeRow, h, hv, he]

theorem withRootPrefix_Prefix {st : SubtreeProto} (h : stID.bytes = st.Prefix.bytes) :
    (withRootPrefix stID st).Prefix ≠ .nil ∧ (withRootPrefix stID st).Prefix.bytes = stID.bytes := by
  unfold withRootPrefix
  split
  · simp_all
  · refine ⟨fun hn => ?_, h.symm⟩
    simp_all

theorem scanSubtreeRows_some {rows : List SubtreeRow} {stop : Option Nat} {st : SubtreeProto}
    {e : Option Error} (h : scanSubtreeRows unmarshal rev stID ⟨rows, stop⟩ = (some st, e)) :
    e = none ∧ ∃ r ∈ rows, r.Revision ≤ rev ∧ ∃ st₀, unmarshal r.Subtree = .ok st₀ ∧
      stID.bytes = st₀.Prefix.bytes ∧ st = withRootPrefix stID st₀ := by
  induction rows with
  | nil => simp [scanSubtreeRows_nil] at h
  | cons r rs ih =>
    cases hd : unmarshal r.Subtree with
    | error c => simp [scanSubtreeRows_cons_undecodable hd] at h
    | ok st₀ =>
      by_cases hr : rev < r.Revision
      · rw [scanSubtreeRows_cons_invisible hd hr] at h
        obtain ⟨he, x, hx, hxr⟩ := ih h
        exact ⟨he, x, List.mem_cons_of_mem r hx, hxr⟩
      · have hv : r.Revision ≤ rev := by omega
        rw [scanSubtreeRows_cons_visible hd hv] at h
        by_cases he : stID.equal st₀.Prefix
        · simp only [he, if_true, Prod.mk.injEq, Option.some.injEq] at h
          obtain ⟨rfl, rfl⟩ := h
          exact ⟨rfl, r, List.mem_cons_self r rs, hv, st₀, hd, (ByteSlice.equal_iff _ _).mp he, rfl⟩
        · simp [he] at h

theorem scanSubtreeRows_error {rows : List SubtreeRow} {p : Option SubtreeProto} {e : Error}
    (h : scanSubtreeRows unmarshal rev stID ⟨rows, none⟩ = (p, some e)) :
    p = none ∧ ((∃ r ∈ scannedRows rev rows, ∃ c, unmarshal r.Subtree = .error c ∧ e = .decode c) ∨
      ∃ r ∈ rows, r.Revision ≤ rev ∧ ∃ st₀, unmarshal r.Subtree = .ok st₀ ∧
        stID.bytes ≠ st₀.Prefix.bytes ∧ e = .prefixMismatch stID st₀.Prefix) := by
  induction rows with
  | nil => simp [scanSubtreeRows_nil] at h
  | cons r rs ih =>
    cases hd : unmarshal r.Subtree with
    | error c =>
      rw [scanSubtreeRows_cons_undecodable hd] at h
      cases h
      refine ⟨rfl, .inl ⟨r, ?_, c, hd, rfl⟩⟩
      unfold scannedRows; split <;> simp
    | ok st₀ =>
      by_cases hr : rev < r.Revision
      · rw [scanSubtreeRows_cons_invisible hd hr] at h
        have hs : scannedRows rev (r :: rs) = r :: scannedRows rev rs := by
          simp [scannedRows, not_le.mpr hr]
        obtain ⟨hp, ⟨x, hx, hxe⟩ | ⟨x, hx, hxr⟩⟩ := ih h
        · exact ⟨hp, .inl ⟨x, by simp [hs, hx], hxe⟩⟩
        · exact ⟨hp, .inr ⟨x, List.mem_cons_of_mem r hx, hxr⟩⟩
      · have hv : r.Revision ≤ rev := by omega
        rw [scanSubtreeRows_cons_visible hd hv] at h
        by_cases he : stID.equal st₀.Prefix
        · simp [he] at h
        · simp only [he, Bool.false_eq_true, if_false, Prod.mk.injEq, Option.some.injEq] at h
          obtain ⟨rfl, rfl⟩ := h
          exact ⟨rfl, .inr ⟨r, List.mem_cons_self r rs, hv, st₀, hd, by simpa using he, rfl⟩⟩

theorem scanSubtreeRows_filter_visible {rows : List SubtreeRow} (stop : Option Nat)
    (hdec : ∀ r ∈ rows, rev < r.Revision → ∃ st, unmarshal r.Subtree = .ok st) :
    scanSubtreeRows unmarshal rev stID ⟨rows, stop⟩ =
      scanSubtreeRows unmarshal rev stID ⟨rows.filter (·.Revision ≤ rev), stop⟩ := by
  induction rows with
  | nil => rfl
  | cons r rs ih =>
    have ih := ih fun x hx => hdec x (List.mem_cons_of_mem r hx)
    by_cases hr : rev < r.Revision
    · obtain ⟨st, hst⟩ := hdec r (List.mem_cons_self r rs) hr
      rw [scanSubtreeRows_cons_invisible hst hr, ih, List.filter_cons_of_neg (by simpa using hr)]
    · rw [List.filter_cons_of_pos (by simpa using hr)]
      cases hd : unmarshal r.Subtree with
      | error c => rw [scanSubtreeRows_cons_undecodable hd, scanSubtreeRows_cons_undecodable hd]
      | ok st =>
        rw [scanSubtreeRows_cons_visible hd (by omega), scanSubtreeRows_cons_visible hd (by omega)]

end ScanLemmas

section Selection

variable {rev : Int}

theorem newestVisible_mem {rows : List SubtreeRow} {r : SubtreeRow}
    (h : newestVisible rev rows = some r) : r ∈ rows ∧ r.Revision ≤ rev := by
  induction rows generalizing r with
  | nil => cases h
  | cons x xs ih =>
    simp only [newestVisible] at h
    cases hxs : newestVisible rev xs with
    | none =>
      simp only [hxs] at h
      by_cases hx : x.Revision ≤ rev
      · rw [if_pos hx, Option.some.injEq] at h
        exact h ▸ ⟨List.mem_cons_self x xs, hx⟩
      · rw [if_neg hx] at h; cases h
    | some b =>
      simp only [hxs] at h
      by_cases hx : x.Revision ≤ rev ∧ b.Revision < x.Revision
      · rw [if_pos hx, Option.some.injEq] at h
        exact h ▸ ⟨List.mem_cons_self x xs, hx.1⟩
      · rw [if_neg hx, Option.some.injEq] at h
        obtain ⟨hb, hbr⟩ := ih hxs
        exact h ▸ ⟨List.mem_cons_of_mem x hb, hbr⟩

theorem newestVisible_eq_none {rows : List SubtreeRow} :
    newestVisible rev rows = none ↔ ∀ r ∈ rows, rev < r.Revision := by
  induction rows with
  | nil => simp [newestVisible]
  | cons x xs ih =>
    simp only [newestVisible, List.mem_cons, forall_eq_or_imp]
    cases hxs : newestVisible rev xs with
    | none =>
      have hall := ih.mp hxs
      by_cases hx : x.Revision ≤ rev
      · simp only [hx, if_true, reduceCtorEq, false_iff, not_and]; intro; omega
      · simp only [hx, if_false, true_iff]; exact ⟨by omega, hall⟩
    | some b =>
      obtain ⟨hb, hbr⟩ := newestVisible_mem hxs
      have hvis : ¬ ∀ r ∈ xs, rev < r.Revision := fun hall => absurd (hall b hb) (not_lt.mpr hbr)
      by_cases hx : x.Revision ≤ rev ∧ b.Revision < x.Revision
      · simp only [hxs, if_pos hx, reduceCtorEq, false_iff, not_and]; exact fun _ => hvis
      · simp only [hxs, if_neg hx, reduceCtorEq, false_iff, not_and]; exact fun _ => hvis

theorem newestVisible_max {rows : List SubtreeRow} {r : SubtreeRow}
    (h : newestVisible rev rows = some r) :
    ∀ x ∈ rows, x.Revision ≤ rev → x.Revision ≤ r.Revision := by
  induction rows generalizing r with
  | nil => simp
  | cons y ys ih =>
    simp only [newestVisible] at h
    intro x hx hxr
    cases hys : newestVisible rev ys with
    | none =>
      simp only [hys] at h
      have hinv := newestVisible_eq_none.mp hys
      by_cases hy : y.Revision ≤ rev
      · rw [if_pos hy, Option.some.injEq] at h
        subst h
        rcases List.mem_cons.mp hx with rfl | hx
        · exact le_refl _
        · exact absurd hxr (not_le.mpr (hinv x hx))
      · rw [if_neg hy] at h; cases h
    | some b =>
      simp only [hys] at h
      have hb : ∀ x ∈ ys, x.Revision ≤ rev → x.Revision ≤ b.Revision := ih hys
      by_cases hy : y.Revision ≤ rev ∧ b.Revision < y.Revision
      · rw [if_pos hy, Option.some.injEq] at h
        subst h
        rcases List.mem_cons.mp hx with rfl | hx
        · exact le_refl _
        · have := hb x hx hxr; omega
      · rw [if_neg hy, Option.some.injEq] at h
        subst h
        rcases List.mem_cons.mp hx with rfl | hx
        · omega
        · exact hb x hx hxr

theorem newestVisible_cons_invisible {r : SubtreeRow} (hr : rev < r.Revision)
    (rs : List SubtreeRow) : newestVisible rev (r :: rs) = newestVisible rev rs := by
  have : ¬ r.Revision ≤ rev := not_le.mpr hr
  simp only [newestVisible]
  cases newestVisible rev rs <;> simp [this]

theorem newestVisible_cons_visible {r : SubtreeRow} {rs : List SubtreeRow} (hr : r.Revision ≤ rev)
    (hrs : ∀ x ∈ rs, x.Revision < r.Revision) : newestVisible rev (r :: rs) = some r := by
  simp only [newestVisible]
  cases hb : newestVisible rev rs with
  | none => simp [hr]
  | some b => simp [hr, hrs b (newestVisible_mem hb).1]

theorem mem_of_scanned {rows : List SubtreeRow} {x : SubtreeRow}
    (h : x ∈ scannedRows rev rows) : x ∈ rows := by
  induction rows with
  | nil => cases h
  | cons r rs ih =>
    unfold scannedRows at h
    split at h
    · rw [List.mem_singleton.mp h]; exact List.mem_cons_self _ _
    · rcases List.mem_cons.mp h with rfl | h
      · exact List.mem_cons_self _ _
      · exact List.mem_cons_of_mem _ (ih h)

end Selection

section Refinement

variable {unmarshal : List UInt8 → Except Nat SubtreeProto} {rev : Int} {stID : ByteSlice}

theorem scanSubtreeRows_eq_selectSubtree {rows : List SubtreeRow}
    (hsorted : rows.Pairwise (fun a b => b.Revision < a.Revision))
    (hdec : ∀ r ∈ scannedRows rev rows, ∃ st, unmarshal r.Subtree = .ok st) :
    scanSubtreeRows unmarshal rev stID ⟨rows, none⟩ = selectSubtree unmarshal rev stID rows := by
  induction rows with
  | nil => simp [scanSubtreeRows_nil, selectSubtree, newestVisible]
  | cons r rs ih =>
    rw [List.pairwise_cons] at hsorted
    obtain ⟨st, hst⟩ := hdec r (by unfold scannedRows; split <;> simp)
    by_cases hr : rev < r.Revision
    · rw [scanSubtreeRows_cons_invisible hst hr, ih hsorted.2]
      · simp only [selectSubtree, newestVisible_cons_invisible hr]
      · intro x hx
        exact hdec x (by simp [scannedRows, not_le.mpr hr, hx])
    · have hv : r.Revision ≤ rev := by omega
      rw [scanSubtreeRows_cons_visible hst hv]
      simp [selectSubtree, newestVisible_cons_visible hv hsorted.1, hst]

theorem selectSubtree_eq_nil_iff {rows : List SubtreeRow} :
    selectSubtree unmarshal rev stID rows = (none, none) ↔ ∀ r ∈ rows, rev < r.Revision := by
  rw [← newestVisible_eq_none]
  unfold selectSubtree
  split
  · simp_all
  · rename_i r hr
    simp only [hr, reduceCtorEq, iff_false]
    split
    · simp
    · split <;> simp

theorem selectSubtree_of_newestVisible {rows : List SubtreeRow} {r : SubtreeRow}
    {st : SubtreeProto} (hr : newestVisible rev rows = some r) (hd : unmarshal r.Subtree = .ok st)
    (hp : stID.bytes = st.Prefix.bytes) :
    selectSubtree unmarshal rev stID rows = (some (withRootPrefix stID st), none) := by
  simp [selectSubtree, hr, hd, hp]

end Refinement

def NodeID.keyOutOfRange (id : NodeID) : Prop :=
  id.PrefixLenBits.tmod 8 = 0 ∧ (id.PrefixLenBits < 0 ∨ 8 * (id.Path.cap : Int) < id.PrefixLenBits)

instance : DecidablePred NodeID.keyOutOfRange := fun _ => inferInstanceAs (Decidable (_ ∧ _))

theorem subtreeKey_panics_iff (id : NodeID) :
    (∃ p, subtreeKey id = .error p) ↔ id.keyOutOfRange := by
  unfold subtreeKey NodeID.keyOutOfRange
  split
  · simp_all
  · rename_i h8
    have hmul := Int.mul_tdiv_cancel_of_tmod_eq_zero (not_not.1 h8)
    have hout : id.Path.sliceTo (id.PrefixLenBits.tdiv 8) = none ↔
        id.PrefixLenBits < 0 ∨ 8 * (id.Path.cap : Int) < id.PrefixLenBits := by
      rw [ByteSlice.sliceTo_eq_none]; omega
    cases hs : id.Path.sliceTo (id.PrefixLenBits.tdiv 8) <;> simp_all

theorem subtreeKey_panic {id : NodeID} {p : GoPanic} (h : subtreeKey id = .error p) :
    p = .sliceBounds (id.PrefixLenBits.tdiv 8) := by
  unfold subtreeKey at h
  split at h
  · cases h
  · split at h <;> cases h; rfl

theorem getSubtree_panics_iff (unmarshal : List UInt8 → Except Nat SubtreeProto)
    (stx : Option (List UInt8 → RowStream SubtreeRow)) (rev : Int) (id : NodeID) :
    getSubtree unmarshal stx rev id = .error (.sliceBounds (id.PrefixLenBits.tdiv 8)) ↔
      id.keyOutOfRange := by
  rw [← subtreeKey_panics_iff]
  unfold getSubtree
  split
  · rename_i p hk
    simp [hk, subtreeKey_panic hk]
  · simp_all
  · split <;> simp_all

theorem subtreeKey_of_aligned {id : NodeID} {key : ByteSlice} {e : Option Error}
    (hid : id.PrefixLenBits.tmod 8 = 0) (h : subtreeKey id = .ok (key, e)) : e = none := by
  unfold subtreeKey at h
  simp only [hid, ne_eq, not_true_eq_false, if_false] at h
  split at h <;> cases h; rfl

theorem getSubtree_some {unmarshal : List UInt8 → Except Nat SubtreeProto}
    {read : List UInt8 → RowStream SubtreeRow} {rev : Int} {id : NodeID} {st : SubtreeProto}
    {e : Option Error} (h : getSubtree unmarshal (some read) rev id = .ok (some st, e)) :
    e = none ∧ ∃ stID, subtreeKey id = .ok (stID, none) ∧ st.Prefix ≠ .nil ∧
      st.Prefix.bytes = stID.bytes ∧ ∃ r ∈ (read stID.bytes).rows, r.Revision ≤ rev ∧ ∃ st₀, unmarshal r.Subtree = .ok st₀ ∧
        st = withRootPrefix stID st₀ := by
  unfold getSubtree at h
  split at h
  · cases h
  · cases h
  · rename_i stID hk
    obtain ⟨he, r, hr, hrv, st₀, hd, hp, rfl⟩ := scanSubtreeRows_some (Except.ok.inj h)
    exact ⟨he, stID, hk, (withRootPrefix_Prefix hp).1, (withRootPrefix_Prefix hp).2, r, hr, hrv, st₀,
      hd, rfl⟩

/-- `getSubtree` over the rows the key-prefix read returns: it never hands back a subtree of a
row above the read revision, a returned subtree carries the key as a non-nil `Prefix`, its
errors are decoding errors of scanned rows or the prefix mismatch, and on rows in decreasing
revision order whose scanned rows decode it is the spec's newest-visible selection. -/
theorem getSubtree_reads_newest_visible (unmarshal : List UInt8 → Except Nat SubtreeProto)
    (rev : Int) (id : NodeID) (hid : id.PrefixLenBits.tmod 8 = 0) (rows : List SubtreeRow) :
    (∀ st e, getSubtree unmarshal (some fun _ => ⟨rows, none⟩) rev id = .ok (some st, e) →
      e = none ∧ ∃ stID, subtreeKey id = .ok (stID, none) ∧ st.Prefix ≠ .nil ∧
        st.Prefix.bytes = stID.bytes ∧ ∃ r ∈ rows, r.Revision ≤ rev ∧ ∃ st₀, unmarshal r.Subtree = .ok st₀ ∧
          st = withRootPrefix stID st₀) ∧
    (∀ p e, getSubtree unmarshal (some fun _ => ⟨rows, none⟩) rev id = .ok (p, some e) →
      p = none ∧ ((∃ r ∈ scannedRows rev rows, ∃ c, unmarshal r.Subtree = .error c ∧ e = .decode c) ∨
        ∃ stID, subtreeKey id = .ok (stID, none) ∧ ∃ r ∈ rows, r.Revision ≤ rev ∧
          ∃ st₀, unmarshal r.Subtree = .ok st₀ ∧ stID.bytes ≠ st₀.Prefix.bytes ∧
            e = .prefixMismatch stID st₀.Prefix)) ∧
    (∀ stID, subtreeKey id = .ok (stID, none) →
      rows.Pairwise (fun a b => b.Revision < a.Revision) →
      (∀ r ∈ scannedRows rev rows, ∃ st, unmarshal r.Subtree = .ok st) →
      getSubtree unmarshal (some fun _ => ⟨rows, none⟩) rev id =
          .ok (selectSubtree unmarshal rev stID rows) ∧
        (getSubtree unmarshal (some fun _ => ⟨rows, none⟩) rev id = .ok (none, none) ↔
          ∀ r ∈ rows, rev < r.Revision)) := by
  refine ⟨fun st e h => getSubtree_some h, fun p e h => ?_, fun stID hk hsorted hdec => ?_⟩
  · unfold getSubtree at h
    split at h
    · cases h
    · rename_i k e' hk
      cases subtreeKey_of_aligned hid hk
    · rename_i stID hk
      simp only [Except.ok.injEq] at h
      obtain ⟨hp, ⟨r, hr, hre⟩ | ⟨r, hr, hrv, st₀, hrest⟩⟩ := scanSubtreeRows_error h
      · exact ⟨hp, .inl ⟨r, hr, hre⟩⟩
      · exact ⟨hp, .inr ⟨stID, hk, r, hr, hrv, st₀, hrest⟩⟩
  · have hget : getSubtree unmarshal (some fun _ => ⟨rows, none⟩) rev id =
        .ok (selectSubtree unmarshal rev stID rows) := by
      simp [getSubtree, hk, scanSubtreeRows_eq_selectSubtree hsorted hdec]
    refine ⟨hget, ?_⟩
    rw [hget, Except.ok.injEq, selectSubtree_eq_nil_iff]

def exampleUnmarshal : List UInt8 → Except Nat SubtreeProto
  | [] => .error 0
  | d :: p => .ok ⟨.mk p, d.toNat, .nil, [], []⟩

/-- The spec's example: of rows at revisions 9, 5 and 3, a read at 7 returns revision 5. -/
theorem getSubtree_at7_reads_revision5 :
    getSubtree exampleUnmarshal (some fun _ => ⟨[⟨9, [9, 1]⟩, ⟨5, [5, 1]⟩, ⟨3, [3, 1]⟩], none⟩) 7
      ⟨.mk [1, 2], 8⟩ = .ok (some ⟨.mk [1], 5, .nil, [], []⟩, none) :=
  ((getSubtree_reads_newest_visible exampleUnmarshal 7 ⟨.mk [1, 2], 8⟩ (by decide)
    [⟨9, [9, 1]⟩, ⟨5, [5, 1]⟩, ⟨3, [3, 1]⟩]).2.2 (.mk [1]) rfl (by decide)
    (by simp [scannedRows, exampleUnmarshal])).1.trans rfl

/-- What a snapshot read depends on. On two stores with the same rows at or below `rev`,
`getSubtree` at `rev` returns the same result as long as their rows above `rev` decode; but it
decodes each row it passes before it looks at the row's revision, so a newer row that does not
decode makes it fail, whatever the rows at or below `rev`. -/
theorem getSubtree_snapshot_decodes_newer_rows (unmarshal : List UInt8 → Except Nat SubtreeProto)
    (rev : Int) (id : NodeID) :
    (∀ rows₁ rows₂ : List SubtreeRow,
      rows₁.filter (·.Revision ≤ rev) = rows₂.filter (·.Revision ≤ rev) →
      (∀ r ∈ rows₁ ++ rows₂, rev < r.Revision → ∃ st, unmarshal r.Subtree = .ok st) →
      getSubtree unmarshal (some fun _ => ⟨rows₁, none⟩) rev id =
        getSubtree unmarshal (some fun _ => ⟨rows₂, none⟩) rev id) ∧
    ∀ (r : SubtreeRow) (rows : List SubtreeRow) (c : Nat), rev < r.Revision →
      unmarshal r.Subtree = .error c → (∃ key, subtreeKey id = .ok (key, none)) →
      getSubtree unmarshal (some fun _ => ⟨r :: rows, none⟩) rev id = .ok (none, some (.decode c)) := by
  refine ⟨fun rows₁ rows₂ hvis hdec => ?_, fun r rows c _ hd ⟨key, hk⟩ => ?_⟩
  · unfold getSubtree
    split
    · rfl
    · rfl
    · dsimp only
      rw [scanSubtreeRows_filter_visible none fun r hr => hdec r (List.mem_append_left _ hr),
        scanSubtreeRows_filter_visible none fun r hr => hdec r (List.mem_append_right _ hr), hvis]
  · simp [getSubtree, hk, scanSubtreeRows_cons_undecodable hd]

/-- Two stores in decreasing revision order that agree at and below revision 4: on the second,
a row at revision 5 that does not decode makes the read at 4 fail. -/
theorem getSubtree_snapshot_read_fails_on_newer_row :
    [(⟨5, []⟩ : SubtreeRow), ⟨3, [3, 1]⟩].Pairwise (fun a b => b.Revision < a.Revision) ∧
    [(⟨3, [3, 1]⟩ : SubtreeRow)].filter (·.Revision ≤ 4) =
      [(⟨5, []⟩ : SubtreeRow), ⟨3, [3, 1]⟩].filter (·.Revision ≤ 4) ∧
    getSubtree exampleUnmarshal (some fun _ => ⟨[⟨3, [3, 1]⟩], none⟩) 4 ⟨.mk [1, 2], 8⟩ =
      .ok (some ⟨.mk [1], 3, .nil, [], []⟩, none) ∧
    getSubtree exampleUnmarshal (some fun _ => ⟨[⟨5, []⟩, ⟨3, [3, 1]⟩], none⟩) 4 ⟨.mk [1, 2], 8⟩ =
      .ok (none, some (.decode 0)) :=
  ⟨by decide, by decide, rfl, (getSubtree_snapshot_decodes_newer_rows exampleUnmarshal 4
    ⟨.mk [1, 2], 8⟩).2 ⟨5, []⟩ [⟨3, [3, 1]⟩] 0 (by decide) rfl ⟨.mk [1], rfl⟩⟩

end TrillianSpanner
