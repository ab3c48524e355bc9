import TrillianSpanner.TreeTX.Writes

/-! The tree head of a `treeTX`. `getLatestRoot` runs `latestSTH` inside a `sync.Once`, so over
every run the head is queried at most once and every accessor reads what the once memoised:
`ReadRevision` the head's revision, `WriteRevision` and `SetMerkleNodes` the revision one above,
and on a failed query each fails with its error. The revision above the head is an `int64` sum,
which wraps at the top of the range. -/

namespace TrillianSpanner

def Event.queried : Event → Option Nat
  | .query t => some t
  | .locked _ _ | .checked _ _ | .closed _ | .roClose _ | .flush _ _ | .buffer _ _ | .getNodes _
  | .setNodeHash _ _ | .read _ _ _ | .returned _ => none

def queryLog (log : List Event) : List Nat := log.filterMap Event.queried

@[simp] theorem queryLog_append (l l' : List Event) :
    queryLog (l ++ l') = queryLog l ++ queryLog l' := List.filterMap_append _ _ _

def Thread.closes : Thread → Bool
  | .commit _ | .rollback _ | .close _ => true
  | .isOpen _ | .getMerkleNodes _ _ _ _ | .setMerkleNodes _ _ | .readRevision _ | .writeRevision _ => false

theorem Thread.closes_of_inBody {th : Thread} (h : th.inBody = true) : th.closes = true := by
  rcases th with _ | _ | (_ | _ | _) | _ | _ | _ | _ | _ <;> simp_all [Thread.inBody, Thread.closes]

theorem Thread.closes_of_unlocking {th : Thread} (h : th.unlocking = true) : th.closes = true := by
  rcases th with _ | _ | (_ | _ | _) | _ | _ | _ | _ | _ <;> simp_all [Thread.unlocking, Thread.closes]

variable {E : Env}

theorem head_of_resolved {tx : TX}
    (hl : (tx.currentSTH, tx.currentSTHErr) = latestSTH E.unmarshalSig E.unmarshalMeta E.heads)
    (he : tx.currentSTHErr = none) :
    ∃ hd, latestSTH E.unmarshalSig E.unmarshalMeta E.heads = (some hd, none) ∧ tx.currentSTH = some hd := by
  have he' : (latestSTH E.unmarshalSig E.unmarshalMeta E.heads).2 = none := by rw [← hl]; exact he
  obtain ⟨hd, hhd⟩ := Option.isSome_iff_exists.1 ((latestSTH_head_iff _ _ _).2 he')
  exact ⟨hd, Prod.ext hhd he', by rw [← hhd, ← hl]⟩

section GetLatestRoot

variable {tx tx' : TX} {t : Nat}

theorem TX.getLatestRoot_resolved {ths : List Thread} (hwi : WriteInv E tx ths)
    (h : tx.getLatestRoot E t = .ok tx') :
    tx'.onceDone = true ∧ (tx'.currentSTH, tx'.currentSTHErr) = latestSTH E.unmarshalSig E.unmarshalMeta E.heads ∧
      ∀ hd, tx'.currentSTH = some hd → tx'.writeRev = wrapInt64 (hd.TreeRevision + 1) := by
  rcases TX.getLatestRoot_ok h with ⟨h1, rfl⟩ | ⟨-, -, rfl⟩
  · exact ⟨h1, hwi.once h1⟩
  · refine ⟨rfl, rfl, fun hd hhd => ?_⟩
    simp only [TX.resolve_currentSTH] at hhd
    simp [TX.resolve_writeRev, hhd]

theorem TX.getLatestRoot_error {p : GoPanic} (h : tx.getLatestRoot E t = .error p) :
    tx.onceDone = false ∧ tx.stx = none ∧ p = .nilDereference := by
  unfold TX.getLatestRoot at h
  split at h
  · cases h
  · split at h
    · cases h; exact ⟨Bool.eq_false_iff.2 ‹_›, ‹_›, rfl⟩
    · cases h

end GetLatestRoot

section Steps

variable {h w k b : Bool} {t : Nat} {th : Thread} {tx tx' : TX} {n : Next}

theorem ThreadStep.queries (hs : ThreadStep E h w k t b th tx tx' n) :
    tx.onceDone.toNat + (queryLog (tx'.log.drop tx.log.length)).length = tx'.onceDone.toNat := by
  cases hs <;> (try cases ‹LockedStep _ _ _ _ _ _ _ _›) <;>
    (try rcases TX.getLatestRoot_ok ‹_› with ⟨-, rfl⟩ | ⟨h1, -, rfl⟩) <;>
    simp [queryLog, Event.queried, List.filterMap_map, *]

theorem FetchStep.queries {j : Nat} (hs : FetchStep E t j th tx tx' n) :
    tx'.onceDone = tx.onceDone ∧ queryLog (tx'.log.drop tx.log.length) = [] := by
  rcases hs.effects.1 with rfl | ⟨rev, id, rfl⟩
  · simp [queryLog]
  · simp only [TX.logRead_onceDone, TX.logRead_log, List.drop_left', true_and]
    split <;> rfl

theorem ThreadStep.revisions {ths : List Thread} (hs : ThreadStep E h w k t b th tx tx' n)
    (hwi : WriteInv E tx ths) :
    (∀ r, n.after th = .readRevision (some r) →
      ∃ hd, latestSTH E.unmarshalSig E.unmarshalMeta E.heads = (some hd, none) ∧ r = hd.TreeRevision) ∧
    (∀ r, n.after th = .writeRevision (some r) →
      ∃ hd, latestSTH E.unmarshalSig E.unmarshalMeta E.heads = (some hd, none) ∧ r = wrapInt64 (hd.TreeRevision + 1)) := by
  cases hs
  case read tx₁ hd he hc hr =>
    obtain ⟨-, hl, -⟩ := TX.getLatestRoot_resolved hwi hr
    obtain ⟨hd', hlat, hcur⟩ := head_of_resolved hl he
    refine ⟨fun r h => ⟨hd', hlat, ?_⟩, fun r h => (by cases h)⟩
    cases h
    rw [hc] at hcur
    cases hcur
    rfl
  case write tx₁ he hr =>
    obtain ⟨-, hl, hw⟩ := TX.getLatestRoot_resolved hwi hr
    obtain ⟨hd, hlat, hcur⟩ := head_of_resolved hl he
    refine ⟨fun r h => (by cases h), fun r h => ⟨hd, hlat, ?_⟩⟩
    cases h
    exact hw hd hcur
  all_goals exact ⟨fun r h => (by cases h), fun r h => (by cases h)⟩

end Steps

structure HeadInv (E : Env) (ths : List Thread) : Prop where
  reads : ∀ (t : Nat) (r : Int), ths[t]? = some (.readRevision (some r)) →
    ∃ hd, latestSTH E.unmarshalSig E.unmarshalMeta E.heads = (some hd, none) ∧ r = hd.TreeRevision
  writes : ∀ (t : Nat) (r : Int), ths[t]? = some (.writeRevision (some r)) →
    ∃ hd, latestSTH E.unmarshalSig E.unmarshalMeta E.heads = (some hd, none) ∧ r = wrapInt64 (hd.TreeRevision + 1)

theorem HeadInv.set {ths : List Thread} (hi : HeadInv E ths) {t : Nat} {th : Thread}
    (hr : ∀ r, th = .readRevision (some r) →
      ∃ hd, latestSTH E.unmarshalSig E.unmarshalMeta E.heads = (some hd, none) ∧ r = hd.TreeRevision)
    (hw : ∀ r, th = .writeRevision (some r) →
      ∃ hd, latestSTH E.unmarshalSig E.unmarshalMeta E.heads = (some hd, none) ∧ r = wrapInt64 (hd.TreeRevision + 1)) :
    HeadInv E (ths.set t th) := by
  refine ⟨fun i r hi' => ?_, fun i r hi' => ?_⟩
  · rcases getElem?_set_of hi' with ⟨-, h⟩ | ⟨-, hi'⟩
    · exact hr r h.symm
    · exact hi.reads i r hi'
  · rcases getElem?_set_of hi' with ⟨-, h⟩ | ⟨-, hi'⟩
    · exact hw r h.symm
    · exact hi.writes i r hi'

theorem HeadInv.call {ths : List Thread} (hi : HeadInv E ths) (c : Call) :
    HeadInv E (ths ++ [c.start]) := by
  refine ⟨fun i r hi' => ?_, fun i r hi' => ?_⟩
  · rcases getElem?_append_singleton hi' with hi' | ⟨-, h⟩
    · exact hi.reads i r hi'
    · cases c <;> cases h
  · rcases getElem?_append_singleton hi' with hi' | ⟨-, h⟩
    · exact hi.writes i r hi'
    · cases c <;> cases h

theorem Reachable.headInv {w : World} (hw : Reachable E w) : HeadInv E w.threads := by
  induction hw with
  | init => exact ⟨fun _ _ h => by simp [World.init] at h, fun _ _ h => by simp [World.init] at h⟩
  | @step w₀ w₁ a hw hs ih =>
    rcases step_cases hs with ⟨c, rfl⟩ | ⟨t, b, th, tx', n, hth, hts, rfl⟩ |
      ⟨t, j, th, tx', n, hth, hfs, rfl⟩
    · exact ih.call c
    · rw [World.apply_threads hth]
      exact ih.set (hts.revisions hw.writeInv).1 (hts.revisions hw.writeInv).2
    · rw [World.apply_threads hth]
      obtain ⟨_, _, _, _, _, _, _, _, _, _, _, hafter⟩ := hfs.lifeEvents
      exact ih.set (fun r h => by rw [hafter] at h; cases h) fun r h => by rw [hafter] at h; cases h

theorem Reachable.queryLog_length {w : World} (hw : Reachable E w) :
    (queryLog w.tx.log).length = w.tx.onceDone.toNat := by
  induction hw with
  | init => rfl
  | @step w₀ w₁ a hw hs ih =>
    rcases step_cases hs with ⟨c, rfl⟩ | ⟨t, b, th, tx', n, hth, hts, rfl⟩ |
      ⟨t, j, th, tx', n, hth, hfs, rfl⟩
    · exact ih
    · obtain ⟨es, hes, -⟩ := hts.log_extends
      have hq := hts.queries
      rw [hes, List.drop_left] at hq
      simp only [World.apply_tx, hes, queryLog_append, List.length_append]
      omega
    · obtain ⟨es, hes, -⟩ := hfs.log_extends
      obtain ⟨h1, hq⟩ := hfs.queries
      rw [hes, List.drop_left] at hq
      simp only [World.apply_tx, hes, queryLog_append, hq, h1, List.append_nil]
      exact ih

theorem World.apply_threads_forall {w : World} {t : Nat} {th : Thread} (hth : w.threads[t]? = some th)
    {P : Thread → Prop} {tx : TX} {n : Next}
    (hc : ∀ (i : Nat) (x : Thread), (w.apply t (tx, n)).threads[i]? = some x → P x)
    (hk : P (n.after th) → P th) : ∀ (i : Nat) (x : Thread), w.threads[i]? = some x → P x := by
  intro i x hi
  rw [World.apply_threads hth] at hc
  by_cases hit : i = t
  · rw [hit, hth] at hi
    cases hi
    exact hk (hc t _ (by simp [(List.getElem?_eq_some_iff.1 hth).1]))
  · exact hc i x (by rw [List.getElem?_set_ne (Ne.symm hit)]; exact hi)

theorem Reachable.stx_open {w : World} (hw : Reachable E w)
    (hc : ∀ (i : Nat) (th : Thread), w.threads[i]? = some th → th.closes = false) :
    w.tx.stx = some E.scope := by
  induction hw with
  | init => rfl
  | @step w₀ w₁ a hw hs ih =>
    rcases step_cases hs with ⟨c, rfl⟩ | ⟨t, b, th, tx', n, hth, hts, rfl⟩ |
      ⟨t, j, th, tx', n, hth, hfs, rfl⟩
    · exact ih fun i th hi => hc i th ((List.getElem?_append_left
        (List.getElem?_eq_some_iff.1 hi).1).trans hi)
    · have hold := World.apply_threads_forall hth hc fun h => by cases hts <;> exact h
      rcases hts.phase_effects with ⟨hb, -⟩ | ⟨hu, -⟩ | ⟨-, -, hstx, -⟩
      · exact absurd (hold t th hth) (by simp [Thread.closes_of_inBody hb])
      · exact absurd (hold t th hth) (by simp [Thread.closes_of_unlocking hu])
      · rw [World.apply_tx, hstx]
        exact ih hold
    · have hstx : tx'.stx = w₀.tx.stx := by
        rcases hfs.effects.1 with rfl | ⟨rev, id, rfl⟩ <;> rfl
      rw [World.apply_tx, hstx]
      exact ih (World.apply_threads_forall hth hc fun h => by cases hfs <;> exact h)

theorem step_not_crashed {w w' : World} {a : Action} (h : step E w a = some w') :
    w.crashed = none := by
  cases a <;> simp only [step] at h <;> split at h <;> simp_all

theorem WriteInv.unresolved {tx : TX} {ths : List Thread} (hwi : WriteInv E tx ths) {e : Error}
    (he : (latestSTH E.unmarshalSig E.unmarshalMeta E.heads).2 = some e) :
    tx.cache.dirty = [] ∧ ∀ (t : Nat) (n : Node), .setNodeHash t n ∉ tx.log := by
  have hd : tx.cache.dirty = [] := by
    by_contra hne
    obtain ⟨h1, h2⟩ := hwi.resolved hne
    rw [← (hwi.once h1).1] at he
    simp [h2] at he
  exact ⟨hd, fun t n hn => by simpa [hd] using hwi.marked t n hn⟩

theorem setMerkleNodes_step_unresolved {w w' : World} (hw : Reachable E w) {e : Error}
    (he : (latestSTH E.unmarshalSig E.unmarshalMeta E.heads).2 = some e) {t : Nat} {b : Bool} {nodes : List Node}
    (hth : w.threads[t]? = some (.setMerkleNodes nodes .writeRev))
    (hs : step E w (.step t b) = some w') :
    w'.threads[t]? = some (.setMerkleNodes nodes (.done (some e))) ∧ w'.tx.cache = w.tx.cache := by
  obtain ⟨th, tx', n, hth', hts, rfl⟩ := step_thread hs
  rw [hth] at hth'
  cases hth'
  have ht : t < w.threads.length := (List.getElem?_eq_some_iff.1 hth).1
  cases hts
  case rootPanic p hr =>
    have hopen := hw.lockInv.phase.reader_open hth rfl
    simp [(TX.getLatestRoot_error hr).2.1] at hopen
  case rootError tx₁ e' he' hr =>
    obtain ⟨-, hl, -⟩ := TX.getLatestRoot_resolved hw.writeInv hr
    rw [← hl] at he
    obtain rfl : e' = e := by simpa [he'] using he
    refine ⟨by simp [ht], ?_⟩
    rcases TX.getLatestRoot_ok hr with ⟨-, rfl⟩ | ⟨-, -, rfl⟩ <;> rfl
  case root he' hr =>
    obtain ⟨-, hl, -⟩ := TX.getLatestRoot_resolved hw.writeInv hr
    rw [← hl] at he
    simp [he'] at he

theorem revision_step_outcome {w w' : World} (hw : Reachable E w) {t : Nat} {b : Bool}
    (hth : w.threads[t]? = some (.readRevision none) ∨ w.threads[t]? = some (.writeRevision none))
    (hs : step E w (.step t b) = some w') :
    w'.crashed = (latestSTH E.unmarshalSig E.unmarshalMeta E.heads).2.map .value ∨
      (w.tx.stx = none ∧ w.tx.onceDone = false ∧ w'.crashed = some .nilDereference) := by
  have hc := step_not_crashed hs
  have hwi := hw.writeInv
  obtain ⟨th, tx', n, hth', hts, rfl⟩ := step_thread hs
  rcases hth with hth | hth <;> rw [hth] at hth' <;> cases hth' <;> cases hts
  case readPanic p hr | writePanic p hr =>
    obtain ⟨h1, h2, rfl⟩ := TX.getLatestRoot_error hr
    exact .inr ⟨h2, h1, rfl⟩
  case readError e he hr | writeError e he hr =>
    obtain ⟨-, hl, -⟩ := TX.getLatestRoot_resolved hwi hr
    refine .inl ?_
    show some (GoPanic.value e) = _
    rw [← hl, he]
    rfl
  case readNil he hnil hr =>
    obtain ⟨-, hl, -⟩ := TX.getLatestRoot_resolved hwi hr
    obtain ⟨hd, -, hcur⟩ := head_of_resolved hl he
    rw [hnil] at hcur
    cases hcur
  case read tx₁ hd he hcur hr | write tx₁ he hr =>
    obtain ⟨-, hl, -⟩ := TX.getLatestRoot_resolved hwi hr
    refine .inl ?_
    show w.crashed = _
    rw [hc, ← hl, he]
    rfl

/-- Memoised resolution of the tree head, over every run of calls on a `treeTX`. `latestSTH` runs
at most once, when the once fires, and every accessor observes its outcome: a returned
`ReadRevision` is the head's revision, a returned `WriteRevision`, and the write revision of a
`SetMerkleNodes` past `writeRev`, one above it, and a head with a nil error is non-nil. Its error
is `ErrTreeNeedsInit` exactly when the query yields no row, and a decoding error exactly when a
row's signature or metadata does not unmarshal. When it fails with `e`, no node hash reaches the
cache, `SetMerkleNodes` returns `e` from its write revision, and `ReadRevision` and
`WriteRevision` panic with `e`; their only other panic is of the first call to run the once after
a `Commit`, `Rollback` or `Close` has set `t.stx` to nil, and a run without those calls keeps
`t.stx` open. -/
theorem latestSTH_resolved_once {w : World} (hw : Reachable E w) :
    (queryLog w.tx.log).length = w.tx.onceDone.toNat ∧
    (w.tx.onceDone = true →
      (w.tx.currentSTH, w.tx.currentSTHErr) = latestSTH E.unmarshalSig E.unmarshalMeta E.heads ∧
      (w.tx.currentSTHErr = none → w.tx.currentSTH.isSome)) ∧
    (∀ (t : Nat) (r : Int), w.threads[t]? = some (.readRevision (some r)) →
      ∃ th, latestSTH E.unmarshalSig E.unmarshalMeta E.heads = (some th, none) ∧ r = th.TreeRevision) ∧
    (∀ (t : Nat) (r : Int), w.threads[t]? = some (.writeRevision (some r)) →
      ∃ th, latestSTH E.unmarshalSig E.unmarshalMeta E.heads = (some th, none) ∧ r = wrapInt64 (th.TreeRevision + 1)) ∧
    (∀ (t t' : Nat) (r r' : Int), w.threads[t]? = some (.readRevision (some r)) →
      w.threads[t']? = some (.writeRevision (some r')) → r' = wrapInt64 (r + 1)) ∧
    (∀ (t : Nat) (nodes : List Node) (pc : SetPc) (wr : Int),
      w.threads[t]? = some (.setMerkleNodes nodes pc) →
      ((∃ rest, pc = .node wr rest) ∨ ∃ n rest, pc = .load wr n rest) →
      ∃ th, latestSTH E.unmarshalSig E.unmarshalMeta E.heads = (some th, none) ∧ wr = wrapInt64 (th.TreeRevision + 1)) ∧
    ((latestSTH E.unmarshalSig E.unmarshalMeta E.heads).2 = some .treeNeedsInit ↔
      E.heads.rows = [] ∧ E.heads.stop = none) ∧
    ((∃ c, (latestSTH E.unmarshalSig E.unmarshalMeta E.heads).2 = some (.decode c)) ↔
      ∃ r ∈ E.heads.rows, ∃ c, E.unmarshalSig r.RootSignature = .error c ∨
        E.unmarshalMeta r.TreeMetadata = .error c) ∧
    (∀ e, (latestSTH E.unmarshalSig E.unmarshalMeta E.heads).2 = some e →
      w.tx.cache.dirty = [] ∧ (∀ (t : Nat) (n : Node), .setNodeHash t n ∉ w.tx.log) ∧
      ∀ (t : Nat) (b : Bool) (nodes : List Node) (w' : World),
        w.threads[t]? = some (.setMerkleNodes nodes .writeRev) → step E w (.step t b) = some w' →
        w'.threads[t]? = some (.setMerkleNodes nodes (.done (some e))) ∧ w'.tx.cache = w.tx.cache) ∧
    (∀ (t : Nat) (b : Bool) (w' : World),
      (w.threads[t]? = some (.readRevision none) ∨ w.threads[t]? = some (.writeRevision none)) →
      step E w (.step t b) = some w' →
      w'.crashed = (latestSTH E.unmarshalSig E.unmarshalMeta E.heads).2.map .value ∨
        (w.tx.stx = none ∧ w.tx.onceDone = false ∧ w'.crashed = some .nilDereference)) ∧
    ((∀ th ∈ w.threads, th.closes = false) → w.tx.stx = some E.scope) := by
  have hwi := hw.writeInv
  have hh := hw.headInv
  refine ⟨hw.queryLog_length, fun h1 => ⟨(hwi.once h1).1, fun he => ?_⟩, hh.reads, hh.writes,
    fun t t' r r' hr hr' => ?_, fun t nodes pc wr hth hpc => ?_, latestSTH_treeNeedsInit_iff _ _ _,
    latestSTH_decode_iff _ _ _, fun e he => ⟨(hwi.unresolved he).1, (hwi.unresolved he).2,
      fun t b nodes w' hth hs => setMerkleNodes_step_unresolved hw he hth hs⟩,
    fun t b w' hth hs => revision_step_outcome hw hth hs,
    fun hc => hw.stx_open fun i th hi => hc th (List.mem_iff_getElem?.2 ⟨i, hi⟩)⟩
  · obtain ⟨hd, -, hcur⟩ := head_of_resolved (hwi.once h1).1 he
    simp [hcur]
  · obtain ⟨hd, hl, rfl⟩ := hh.reads t r hr
    obtain ⟨hd', hl', rfl⟩ := hh.writes t' r' hr'
    rw [hl] at hl'
    cases hl'
    rfl
  · rcases hpc with ⟨rest, rfl⟩ | ⟨n, rest, rfl⟩ <;>
      obtain ⟨h1, h2, rfl, -⟩ := (hwi.sets t nodes _ hth).1 <;>
      obtain ⟨hd, hl, -, hw'⟩ := hwi.head h1 h2 <;>
      exact ⟨hd, hl, hw'⟩

set_option maxRecDepth 2000 in
-- ten steps of three calls nest past the default depth when the run is evaluated
/-- On the example transaction, `ReadRevision`, `WriteRevision` and `SetMerkleNodes` resolve
the head once, to revision 4, and return 4 and 5; with no head, `ReadRevision` panics with
`ErrTreeNeedsInit`. -/
theorem latestSTH_resolved_once_example :
    (∃ w, Reachable (exampleEnv .readWrite) w ∧
      w.threads = [.readRevision (some 4), .writeRevision (some 5),
        .setMerkleNodes [⟨⟨.mk [1], 8⟩, .mk [9]⟩] (.done none)] ∧
      queryLog w.tx.log = [0] ∧ (queryLog w.tx.log).length = w.tx.onceDone.toNat ∧
      (5 : Int) = wrapInt64 (4 + 1)) ∧
    ∃ w, Reachable { exampleEnv .readWrite with heads := ⟨[], none⟩ } w ∧
      (latestSTH (exampleEnv .readWrite).unmarshalSig (exampleEnv .readWrite).unmarshalMeta ⟨[], none⟩).2 = some .treeNeedsInit ∧
      (step { exampleEnv .readWrite with heads := ⟨[], none⟩ } w (.step 0 false)).map World.crashed =
        some (some (.value .treeNeedsInit)) := by
  have hw := Reachable.run .init (Option.some_get (show (run (exampleEnv .readWrite)
    (World.init (exampleEnv .readWrite)) [.call .readRevision, .step 0 false, .call .writeRevision,
      .step 1 false, .call (.setMerkleNodes [⟨⟨.mk [1], 8⟩, .mk [9]⟩]), .step 2 false, .step 2 false,
      .step 2 false, .step 2 false, .step 2 false]).isSome by decide)).symm
  have hw₂ := Reachable.run .init (Option.some_get (show (run { exampleEnv .readWrite with
    heads := ⟨[], none⟩ } (World.init { exampleEnv .readWrite with heads := ⟨[], none⟩ })
      [.call .readRevision]).isSome by decide)).symm
  refine ⟨⟨_, hw, by decide, by decide, (latestSTH_resolved_once hw).1,
    (latestSTH_resolved_once hw).2.2.2.2.1 0 1 4 5 (by decide) (by decide)⟩,
    _, hw₂, (latestSTH_resolved_once hw₂).2.2.2.2.2.2.1.2 ⟨rfl, rfl⟩, by decide⟩

/-- The write revision is one above the head in `int64`, so it wraps at the top of the range.
The rows `storeSubtrees` inserts at it lie above the head and stay invisible to every read at or
below it (a scan at `rev` skips exactly the rows above `rev`), unless the head is at `2^63 - 1`,
where they land at `-2^63`, below every revision. The loader reads at the head in every case. -/
theorem writeRev_wraps_at_int64_max {w : World} (hw : Reachable E w)
    (hrev : ∀ r ∈ E.heads.rows, IsInt64 r.TreeRevision) :
    (∀ (t : Nat) (m : SubtreeDataRow), .buffer t m ∈ w.tx.log →
      ∃ th, latestSTH E.unmarshalSig E.unmarshalMeta E.heads = (some th, none) ∧
        m.Revision = wrapInt64 (th.TreeRevision + 1) ∧
        ((∀ rev ≤ th.TreeRevision, rev < m.Revision) ↔ th.TreeRevision ≠ 2 ^ 63 - 1) ∧
        (th.TreeRevision = 2 ^ 63 - 1 → m.Revision = -2 ^ 63)) ∧
    ∀ (t : Nat) (nodes : List Node) (pc : SetPc) (rev : Int) (s : Option Scope),
      w.threads[t]? = some (.setMerkleNodes nodes pc) → .read t rev s ∈ w.tx.log →
      ∃ th, latestSTH E.unmarshalSig E.unmarshalMeta E.heads = (some th, none) ∧ rev = th.TreeRevision := by
  have hwi := hw.writeInv
  have hint : ∀ th, latestSTH E.unmarshalSig E.unmarshalMeta E.heads = (some th, none) → IsInt64 th.TreeRevision :=
    fun th hl => by
      obtain ⟨r, hr, hrow⟩ := latestSTH_row E.unmarshalSig E.unmarshalMeta (congrArg Prod.fst hl)
      exact hrow ▸ hrev r hr
  refine ⟨fun t m hm => ?_, fun t nodes pc rev s hth hr => ?_⟩
  · obtain ⟨th, hlat, hm⟩ := hwi.buffers t m hm
    refine ⟨th, hlat, hm, ?_, fun hmax => by rw [hm, hmax]; exact wrapInt64_max_succ⟩
    rw [← wrapInt64_succ_gt_iff (hint th hlat), ← hm]
    exact ⟨fun h => h _ le_rfl, fun h rev hle => lt_of_le_of_lt hle h⟩
  · obtain ⟨th, hlat, rfl⟩ := (hwi.sets t nodes pc hth).2 rev s hr
    exact ⟨th, hlat, wrapInt64_succ_pred (hint th hlat)⟩

def headMaxEnv : Env :=
  { exampleEnv .readWrite with heads := ⟨[⟨1, 0, 0, .nil, [], 2 ^ 63 - 1, []⟩], none⟩ }

/-- With the head at `2^63 - 1`, a `SetMerkleNodes` and `Commit` insert the subtree under key
`[3]` at revision `-2^63`, and a snapshot at revision 0 that meets the row returns it. -/
theorem writeRev_wraps_at_int64_max_example :
    ∃ w, Reachable headMaxEnv w ∧ .buffer 1 ⟨1, .mk [3], -2 ^ 63, [9, 3]⟩ ∈ w.tx.log ∧
      (∃ th, latestSTH headMaxEnv.unmarshalSig headMaxEnv.unmarshalMeta headMaxEnv.heads = (some th, none) ∧
        (-2 ^ 63 : Int) = wrapInt64 (th.TreeRevision + 1) ∧
        ((∀ rev ≤ th.TreeRevision, rev < -2 ^ 63) ↔ th.TreeRevision ≠ 2 ^ 63 - 1) ∧
        (th.TreeRevision = 2 ^ 63 - 1 → (-2 ^ 63 : Int) = -2 ^ 63)) ∧
      getSubtree headMaxEnv.unmarshal (some fun _ => ⟨[⟨-2 ^ 63, [9, 3]⟩], none⟩) 0 ⟨.mk [3], 8⟩ =
        .ok (some ⟨.mk [3], 8, .mk [9], [], []⟩, none) := by
  have hw := Reachable.run .init (Option.some_get (show (run headMaxEnv (World.init headMaxEnv)
    [.call (.setMerkleNodes [⟨⟨.mk [3], 8⟩, .mk [9]⟩]), .step 0 false, .step 0 false, .step 0 false,
      .step 0 false, .step 0 false, .call .commit, .step 1 false, .step 1 false,
      .step 1 false]).isSome by decide)).symm
  refine ⟨_, hw, ?hbuf, (writeRev_wraps_at_int64_max hw ?hrev).1 1 _ ?hbuf, rfl⟩
  case hbuf => decide
  case hrev => simp [headMaxEnv, exampleEnv, IsInt64]

end TrillianSpanner
