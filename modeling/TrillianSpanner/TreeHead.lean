import TrillianSpanner.Go

/-! `treeStorage.latestSTH`: the newest tree head visible to a transaction's scope. -/

namespace TrillianSpanner

structure DigitallySigned where
  wire : List UInt8
  deriving DecidableEq, Repr

structure HeadRow where
  TreeID : Int
  TimestampNanos : Int
  TreeSize : Int
  RootHash : ByteSlice
  RootSignature : List UInt8
  TreeRevision : Int
  TreeMetadata : List UInt8
  deriving DecidableEq, Repr

structure TreeHead where
  TreeId : Int
  TsNanos : Int
  TreeSize : Int
  RootHash : ByteSlice
  Signature : DigitallySigned
  TreeRevision : Int
  Metadata : AnyPB
  deriving DecidableEq, Repr

section LatestSTH

variable (unmarshalSig : List UInt8 → Except Nat DigitallySigned)
  (unmarshalMeta : List UInt8 → Except Nat AnyPB)

def headRow (th : Option TreeHead) (r : HeadRow) : Option TreeHead × Option Error :=
  match unmarshalSig r.RootSignature with
  | .error e => (th, some (.decode e))
  | .ok sig =>
    match unmarshalMeta r.TreeMetadata with
    | .error e => (th, some (.decode e))
    | .ok meta => (some ⟨r.TreeID, r.TimestampNanos, r.TreeSize, r.RootHash, sig, r.TreeRevision, meta⟩, none)

def latestSTH (rows : RowStream HeadRow) : Option TreeHead × Option Error :=
  match doRows (headRow unmarshalSig unmarshalMeta) none rows.rows rows.stop with
  | (_, some e) => (none, some e)
  | (none, none) => (none, some .treeNeedsInit)
  | (some th, none) => (some th, none)

theorem latestSTH_head_iff (rows : RowStream HeadRow) :
    (latestSTH unmarshalSig unmarshalMeta rows).1.isSome ↔ (latestSTH unmarshalSig unmarshalMeta rows).2 = none := by
  unfold latestSTH
  split <;> simp

theorem latestSTH_row {rows : RowStream HeadRow} {th : TreeHead}
    (h : (latestSTH unmarshalSig unmarshalMeta rows).1 = some th) : ∃ r ∈ rows.rows, th.TreeRevision = r.TreeRevision := by
  have key := @doRows_state (Option TreeHead) HeadRow (headRow unmarshalSig unmarshalMeta)
    (fun s => ∀ th, s = some th → ∃ r ∈ rows.rows, th.TreeRevision = r.TreeRevision) rows.rows
    (fun s r hr hs => by
      unfold headRow
      split
      · exact hs
      · split
        · exact hs
        · rintro _ ⟨⟩
          exact ⟨r, hr, rfl⟩) none rows.stop (by simp)
  unfold latestSTH at h
  split at h <;> simp_all

theorem headRow_cases (th : Option TreeHead) (r : HeadRow) :
    (∃ c, (unmarshalSig r.RootSignature = .error c ∨ unmarshalMeta r.TreeMetadata = .error c) ∧
      headRow unmarshalSig unmarshalMeta th r = (th, some (.decode c))) ∨
    ((∃ sig, unmarshalSig r.RootSignature = .ok sig) ∧ (∃ meta, unmarshalMeta r.TreeMetadata = .ok meta) ∧
      ∃ h, headRow unmarshalSig unmarshalMeta th r = (some h, none)) := by
  unfold headRow
  split
  · exact .inl ⟨_, .inl ‹_›, rfl⟩
  · split
    · exact .inl ⟨_, .inr ‹_›, rfl⟩
    · exact .inr ⟨⟨_, ‹_›⟩, ⟨_, ‹_›⟩, _, rfl⟩

theorem doRows_headRow_error {th : Option TreeHead} {rows : List HeadRow} {stop : Option Nat}
    {e : Error} (h : (doRows (headRow unmarshalSig unmarshalMeta) th rows stop).2 = some e) :
    (∃ r ∈ rows, ∃ c, (unmarshalSig r.RootSignature = .error c ∨
      unmarshalMeta r.TreeMetadata = .error c) ∧ e = .decode c) ∨ ∃ c, stop = some c ∧ e = .spanner c := by
  induction rows generalizing th with
  | nil => simpa [eq_comm] using h
  | cons r rs ih =>
    rcases headRow_cases unmarshalSig unmarshalMeta th r with ⟨c, hc, hr⟩ | ⟨-, -, h', hr⟩
    · rw [doRows_cons_of_error hr] at h
      cases h
      exact .inl ⟨r, List.mem_cons_self r rs, c, hc, rfl⟩
    · rw [doRows_cons_of_ok hr] at h
      rcases ih h with ⟨x, hx, hxe⟩ | hstop
      · exact .inl ⟨x, List.mem_cons_of_mem r hx, hxe⟩
      · exact .inr hstop

theorem doRows_headRow_undecodable {th : Option TreeHead} {rows : List HeadRow} (stop : Option Nat)
    (h : ∃ r ∈ rows, ∃ c, unmarshalSig r.RootSignature = .error c ∨ unmarshalMeta r.TreeMetadata = .error c) :
    ∃ c, (doRows (headRow unmarshalSig unmarshalMeta) th rows stop).2 = some (.decode c) := by
  induction rows generalizing th with
  | nil => simp at h
  | cons r rs ih =>
    rcases headRow_cases unmarshalSig unmarshalMeta th r with ⟨c, -, hr⟩ | ⟨⟨sig, hsig⟩, ⟨meta, hmeta⟩, h', hr⟩
    · exact ⟨c, by rw [doRows_cons_of_error hr]⟩
    · rw [doRows_cons_of_ok hr]
      refine ih ?_
      obtain ⟨x, hx, c, hc⟩ := h
      rcases List.mem_cons.1 hx with rfl | hx
      · rcases hc with hc | hc <;> simp_all
      · exact ⟨x, hx, c, hc⟩

theorem doRows_headRow_empty {rows : List HeadRow} {stop : Option Nat} :
    doRows (headRow unmarshalSig unmarshalMeta) none rows stop = (none, none) ↔ rows = [] ∧ stop = none := by
  cases rows with
  | nil => cases stop <;> simp
  | cons r rs =>
    simp only [reduceCtorEq, false_and, iff_false]
    rcases headRow_cases unmarshalSig unmarshalMeta none r with ⟨c, -, hr⟩ | ⟨-, -, h', hr⟩
    · simp [doRows_cons_of_error hr]
    · rw [doRows_cons_of_ok hr]
      intro hnone
      have := @doRows_state (Option TreeHead) HeadRow (headRow unmarshalSig unmarshalMeta) (fun s => s.isSome = true)
        rs (fun s r _ hs => by
          rcases headRow_cases unmarshalSig unmarshalMeta s r with ⟨c, -, hr⟩ | ⟨-, -, h', hr⟩ <;> simp_all) (some h') stop rfl
      simp [hnone] at this

theorem latestSTH_treeNeedsInit_iff (rows : RowStream HeadRow) :
    (latestSTH unmarshalSig unmarshalMeta rows).2 = some .treeNeedsInit ↔ rows.rows = [] ∧ rows.stop = none := by
  rw [← doRows_headRow_empty unmarshalSig unmarshalMeta]
  unfold latestSTH
  rcases hd : doRows (headRow unmarshalSig unmarshalMeta) none rows.rows rows.stop with ⟨s, _ | e⟩
  · cases s <;> simp
  · simp only [Option.some.injEq, Prod.mk.injEq, reduceCtorEq, and_false, iff_false]
    rintro rfl
    rcases doRows_headRow_error unmarshalSig unmarshalMeta (congrArg Prod.snd hd) with ⟨_, _, _, _, h⟩ | ⟨_, _, h⟩ <;>
      cases h

theorem latestSTH_decode_iff (rows : RowStream HeadRow) :
    (∃ c, (latestSTH unmarshalSig unmarshalMeta rows).2 = some (.decode c)) ↔
      ∃ r ∈ rows.rows, ∃ c, unmarshalSig r.RootSignature = .error c ∨ unmarshalMeta r.TreeMetadata = .error c := by
  have hsnd : ∀ c, (latestSTH unmarshalSig unmarshalMeta rows).2 = some (.decode c) ↔
      (doRows (headRow unmarshalSig unmarshalMeta) none rows.rows rows.stop).2 = some (.decode c) := by
    intro c
    unfold latestSTH
    split <;> simp_all
  simp only [hsnd]
  constructor
  · rintro ⟨c, hc⟩
    rcases doRows_headRow_error unmarshalSig unmarshalMeta hc with ⟨r, hr, c', hc', he⟩ | ⟨_, _, h⟩
    · exact ⟨r, hr, c', hc'⟩
    · cases h
  · exact doRows_headRow_undecodable unmarshalSig unmarshalMeta rows.stop

end LatestSTH

end TrillianSpanner
