import Mathlib.Tactic.Ring

/-! Go values of the Cloud Spanner tree storage: byte slices with their nil state, `int64`
arithmetic, the package's errors, the ways a goroutine panics, and Spanner row iterators. -/

namespace TrillianSpanner

inductive ByteSlice
  | nil
  | mk (bytes : List UInt8)
  | withCap (bytes more : List UInt8)
  deriving DecidableEq, Repr

namespace ByteSlice

def bytes : ByteSlice → List UInt8
  | nil => []
  | mk bs => bs
  | withCap bs _ => bs

def spare : ByteSlice → List UInt8
  | nil | mk _ => []
  | withCap _ more => more

def cap (s : ByteSlice) : Nat := s.bytes.length + s.spare.length

def sliceTo (s : ByteSlice) (hi : Int) : Option ByteSlice :=
  if 0 ≤ hi ∧ hi ≤ s.cap then
    match s with
    | nil => some nil
    | mk bs => some (mk (bs.take hi.toNat))
    | withCap bs more => some (mk ((bs ++ more).take hi.toNat))
  else none

def equal (a b : ByteSlice) : Bool := decide (a.bytes = b.bytes)

@[simp] theorem bytes_nil : nil.bytes = [] := rfl
@[simp] theorem bytes_mk (bs : List UInt8) : (mk bs).bytes = bs := rfl
@[simp] theorem spare_mk (bs : List UInt8) : (mk bs).spare = [] := rfl

@[simp] theorem equal_iff (a b : ByteSlice) : a.equal b = true ↔ a.bytes = b.bytes := by
  simp [equal]

theorem sliceTo_bytes {s k : ByteSlice} {hi : Int} (h : s.sliceTo hi = some k) :
    k.bytes = (s.bytes ++ s.spare).take hi.toNat := by
  unfold sliceTo at h
  split at h
  · cases s <;> cases h <;> simp [bytes, spare]
  · cases h

theorem sliceTo_eq_none {s : ByteSlice} {hi : Int} :
    s.sliceTo hi = none ↔ hi < 0 ∨ s.cap < hi := by
  unfold sliceTo
  split
  · cases s <;> simp only [reduceCtorEq, false_iff] <;> omega
  · simp only [true_iff]; omega

end ByteSlice

structure AnyPB where
  TypeUrl : String
  Value : List UInt8
  deriving DecidableEq, Repr

def wrapInt64 (x : Int) : Int := (x + 2 ^ 63) % 2 ^ 64 - 2 ^ 63

def IsInt64 (x : Int) : Prop := -2 ^ 63 ≤ x ∧ x < 2 ^ 63

theorem wrapInt64_of_isInt64 {x : Int} (h : IsInt64 x) : wrapInt64 x = x := by
  unfold wrapInt64; unfold IsInt64 at h; omega

theorem isInt64_wrapInt64 (x : Int) : IsInt64 (wrapInt64 x) := by
  unfold wrapInt64 IsInt64; omega

theorem wrapInt64_succ_pred {r : Int} (h : IsInt64 r) : wrapInt64 (wrapInt64 (r + 1) - 1) = r := by
  unfold wrapInt64; unfold IsInt64 at h; omega

theorem wrapInt64_succ_gt_iff {r : Int} (h : IsInt64 r) : r < wrapInt64 (r + 1) ↔ r ≠ 2 ^ 63 - 1 := by
  unfold wrapInt64; unfold IsInt64 at h; omega

theorem wrapInt64_max_succ : wrapInt64 (2 ^ 63 - 1 + 1) = -2 ^ 63 := by decide

inductive Error
  /-- `ErrTransactionClosed`, "transaction is closed". -/
  | transactionClosed
  /-- `ErrWrongTXType`, "mutating method called on read-only transaction". -/
  | wrongTXType
  /-- `errFinished`, "read complete": stops a row scan and is never returned. -/
  | finished
  | treeNeedsInit
  /-- "id.PrefixLenBits (%d) is not a multiple of 8; it cannot be a subtree prefix". -/
  | notSubtreePrefix (prefixLenBits : Int)
  /-- "got subtree with prefix %v, wanted %v". -/
  | prefixMismatch (got want : ByteSlice)
  /-- "got subtree rev %d, wanted <= %d". -/
  | revisionTooNew (got want : Int)
  /-- "internal error: unknown transaction type %T". -/
  | unknownTxType
  | decode (code : Nat)
  | encode (code : Nat)
  | spanner (code : Nat)
  deriving DecidableEq, Repr

inductive GoPanic
  /-- `s[:hi]` with `hi` out of range. -/
  | sliceBounds (hi : Int)
  /-- A method called on a nil interface value or a field read through a nil pointer. -/
  | nilDereference
  /-- `panic(err)`. -/
  | value (e : Error)
  deriving DecidableEq, Repr

structure RowStream (ρ : Type) where
  rows : List ρ
  stop : Option Nat
  deriving DecidableEq, Repr

def doRows {σ ρ : Type} (f : σ → ρ → σ × Option Error) : σ → List ρ → Option Nat → σ × Option Error
  | s, [], stop => (s, stop.map .spanner)
  | s, r :: rs, stop =>
    match f s r with
    | (s', some e) => (s', some e)
    | (s', none) => doRows f s' rs stop

@[simp] theorem doRows_nil {σ ρ : Type} (f : σ → ρ → σ × Option Error) (s : σ) (stop : Option Nat) :
    doRows f s [] stop = (s, stop.map .spanner) := rfl

theorem doRows_state {σ ρ : Type} {f : σ → ρ → σ × Option Error} (P : σ → Prop) :
    ∀ {rows : List ρ}, (∀ s, ∀ r ∈ rows, P s → P (f s r).1) →
      ∀ {s : σ} (stop : Option Nat), P s → P (doRows f s rows stop).1
  | [], _, _, _, hs => hs
  | r :: rows, hf, s, stop, hs => by
    unfold doRows
    have hr := hf s r (List.mem_cons_self _ _) hs
    split
    · simp_all
    · exact doRows_state P (fun s r hr => hf s r (List.mem_cons_of_mem _ hr)) stop (by simp_all)

theorem doRows_cons_of_ok {σ ρ : Type} {f : σ → ρ → σ × Option Error} {s s' : σ} {r : ρ}
    (h : f s r = (s', none)) (rs : List ρ) (stop : Option Nat) :
    doRows f s (r :: rs) stop = doRows f s' rs stop := by
  simp [doRows, h]

theorem doRows_cons_of_error {σ ρ : Type} {f : σ → ρ → σ × Option Error} {s s' : σ} {r : ρ}
    {e : Error} (h : f s r = (s', some e)) (rs : List ρ) (stop : Option Nat) :
    doRows f s (r :: rs) stop = (s', some e) := by
  simp [doRows, h]

end TrillianSpanner
