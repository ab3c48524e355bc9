import TrillianSpanner.TreeTX.Writes

/-! What a read-write `treeTX` hands to Spanner. The `SubtreeData` table is modelled as the
history of the commits that reached it (`tableOf`); here a run of one transaction is tied to
that history. The inserts the run buffered are those `storeSubtrees` makes of the subtrees its
`Commit` flushed, at its write revision, and `Commit` returns that call's error; so what
Spanner applies when the transaction commits, or drops when `Commit` failed, is `commitFlush` of
the run's `FlushedTX`. -/

namespace TrillianSpanner

def Event.buffered : Event → Option SubtreeDataRow
  | .buffer _ m => some m
  | .locked _ _ | .checked _ _ | .closed _ | .roClose _ | .flush _ _ | .getNodes _
  | .setNodeHash _ _ | .read _ _ _ | .query _ | .returned _ => none

def bufferLog (log : List Event) : List SubtreeDataRow := log.filterMap Event.buffered

@[simp] theorem bufferLog_append (l l' : List Event) :
    bufferLog (l ++ l') = bufferLog l ++ bufferLog l' := List.filterMap_append _ _ _

@[simp] theorem bufferLog_cons (e : Event) (l : List Event) :
    bufferLog (e :: l) = e.buffered.toList ++ bufferLog l := by
  cases h : e.buffered <;> simp [bufferLog, h]

@[simp] theorem bufferLog_nil : bufferLog [] = [] := rfl

@[simp] theorem bufferLog_ite (c : Prop) [Decidable c] (e : Event) (he : e.buffered = none) :
    bufferLog (if c then [e] else []) = [] := by
  split <;> simp [he]

structure FlushInv (E : Env) (tx : TX) (ths : List Thread) : Prop where
  unflushed : (∀ t sts, .flush t sts ∉ tx.log) → bufferLog tx.log = []
  flushed : ∀ t sts, .flush t sts ∈ tx.log → ∃ err,
    storeSubtrees E.marshal E.bufferWrite E.treeID tx.writeRev (some .readWrite) (sts.map some) =
      (bufferLog tx.log, err) ∧
    (ths[t]? = some (.commit (.unlock err)) ∨ ths[t]? = some (.commit (.done err)))

variable {E : Env}

section Steps

variable {h w k b : Bool} {t : Nat} {th : Thread} {tx tx' : TX} {n : Next}

theorem ThreadStep.flush_cases (hs : ThreadStep E h w k t b th tx tx' n) :
    (∃ es, tx'.log = tx.log ++ es ∧ bufferLog es = [] ∧ ∀ t' sts, .flush t' sts ∉ es) ∨
    ∃ ms err, storeSubtrees E.marshal E.bufferWrite E.treeID tx.writeRev (some .readWrite)
        (tx.cache.dirtySubtrees.map some) = (ms, err) ∧
      tx'.log = tx.log ++ .locked t true :: .flush t tx.cache.dirtySubtrees :: ms.map (.buffer t) ∧
      tx'.writeRev = tx.writeRev ∧ th = .commit .body ∧ n = .moves (.commit (.unlock err)) := by
  obtain ⟨es, hes, -⟩ := hs.log_extends
  cases hs <;> (try cases ‹LockedStep _ _ _ _ _ _ _ _›) <;> (try contradiction)
  case commit.readWrite ms err _ hstx hst => exact .inr ⟨ms, err, hstx ▸ hst, rfl, rfl, rfl, rfl⟩
  all_goals
    (try rcases TX.getLatestRoot_ok ‹_› with ⟨-, rfl⟩ | ⟨-, -, rfl⟩) <;>
    refine .inl ⟨es, hes, ?_⟩ <;> simp at hes <;> subst hes <;> simp [Event.buffered]

theorem ThreadStep.commit_unlock {r : Option Error} (hs : ThreadStep E h w k t b (.commit (.unlock r)) tx tx' n) :
    n = .moves (.commit (.done r)) := by
  cases hs with
  | commit hl => cases hl; rfl

theorem ThreadStep.commit_done {r : Option Error} (hs : ThreadStep E h w k t b (.commit (.done r)) tx tx' n) :
    False := by
  cases hs with
  | commit hl => cases hl

end Steps

@[simp] theorem bufferLog_map_buffer (t : Nat) (ms : List SubtreeDataRow) :
    bufferLog (ms.map (.buffer t)) = ms := by
  induction ms with
  | nil => rfl
  | cons m ms ih => simp [ih, Event.buffered]

@[simp] theorem storeSubtrees_readWrite_nil (marshal : SubtreeProto → Except Nat (List UInt8))
    (bufferWrite : SubtreeDataRow → Option Nat) (treeID writeRev : Int) :
    storeSubtrees marshal bufferWrite treeID writeRev (some .readWrite) [] = ([], none) :=
  rfl

theorem Thread.flushing_cases {ths : List Thread} {t : Nat} {err : Option Error}
    (h : ths[t]? = some (.commit (.unlock err)) ∨ ths[t]? = some (.commit (.done err))) :
    ∃ pc, ths[t]? = some (.commit pc) := by
  rcases h with h | h <;> exact ⟨_, h⟩

theorem FlushInv.append {tx tx' : TX} {ths ths' : List Thread} {es : List Event}
    (hi : FlushInv E tx ths) (hes : tx'.log = tx.log ++ es) (hbuf : bufferLog es = [])
    (hnf : ∀ t sts, .flush t sts ∉ es)
    (hrev : ∀ t sts, .flush t sts ∈ tx.log → sts ≠ [] → tx'.writeRev = tx.writeRev)
    (hths : ∀ (t : Nat) (err : Option Error), (ths[t]? = some (.commit (.unlock err)) ∨ ths[t]? = some (.commit (.done err))) →
      ths'[t]? = some (.commit (.unlock err)) ∨ ths'[t]? = some (.commit (.done err))) :
    FlushInv E tx' ths' := by
  have hb : bufferLog tx'.log = bufferLog tx.log := by rw [hes, bufferLog_append, hbuf, List.append_nil]
  have hold : ∀ t sts, .flush t sts ∈ tx'.log → .flush t sts ∈ tx.log := fun t sts hf => by
    rw [hes, List.mem_append] at hf
    exact hf.resolve_right (hnf t sts)
  refine ⟨fun hn => hb ▸ hi.unflushed fun t sts hf => hn t sts (hes ▸ List.mem_append_left _ hf),
    fun t sts hf => ?_⟩
  obtain ⟨err, hst, hth⟩ := hi.flushed t sts (hold t sts hf)
  refine ⟨err, ?_, hths t err hth⟩
  rw [hb]
  rcases eq_or_ne sts [] with rfl | hne
  · simpa using hst
  · rw [hrev t sts (hold t sts hf) hne]
    exact hst

theorem WriteInv.onceDone_of_flush {ths : List Thread} (hwi : WriteInv E tx ths) {t : Nat}
    {sts : List SubtreeProto} (hf : .flush t sts ∈ tx.log) (hne : sts ≠ []) : tx.onceDone = true := by
  refine (hwi.resolved fun hd => hne ?_).1
  rw [hwi.flushed t sts hf, SubtreeCache.dirtySubtrees, hd, List.filterMap_nil]

theorem FlushInv.init : FlushInv E (TX.init E) [] :=
  ⟨fun _ => rfl, fun _ _ h => by simp [TX.init] at h⟩

theorem Reachable.flushInv {w : World} (hw : Reachable E w) : FlushInv E w.tx w.threads := by
  induction hw with
  | init => exact FlushInv.init
  | @step w₀ w₁ a hw hs ih =>
    rcases step_cases hs with ⟨c, rfl⟩ | ⟨t₀, b, th, tx', n, hth, hts, rfl⟩ |
      ⟨t₀, j, th, tx', n, hth, hfs, rfl⟩
    · have hleft : ∀ (t : Nat) (x : Thread), w₀.threads[t]? = some x →
          (w₀.threads ++ [c.start])[t]? = some x := fun t x hx =>
        (List.getElem?_append_left (List.getElem?_eq_some_iff.1 hx).1).trans hx
      exact ih.append (List.append_nil _).symm rfl (by simp) (fun _ _ _ _ => rfl)
        fun t err h => h.imp (hleft t _) (hleft t _)
    · rw [World.apply_tx, World.apply_threads hth]
      rcases hts.flush_cases with ⟨es, hes, hbuf, hnf⟩ | ⟨ms, err, hst, hlog, hrev, rfl, rfl⟩
      · refine ih.append hes hbuf hnf (fun t sts hf hne => ?_) fun t err h => ?_
        · exact (TX.root_eq_iff.1 (hts.writeStep.root_of_done
            (hw.writeInv.onceDone_of_flush hf hne))).2.2.2
        · have hlen := (List.getElem?_eq_some_iff.1 hth).1
          by_cases ht : t = t₀
          · subst ht
            rcases h with h | h <;> rw [hth] at h <;> cases h
            · exact .inr (by simp [hlen, hts.commit_unlock, Next.after])
            · exact hts.commit_done.elim
          · simpa only [List.getElem?_set_ne (Ne.symm ht)] using h
      · have hend := (Reachable.step _ hw hs).lifeInv.endsOnce
        simp only [World.apply_tx, hlog, endsLog_append, List.length_append] at hend
        have hnone : endsLog w₀.tx.log = [] := by
          simp [endsLog, Event.ends, List.filter_map, Function.comp_def] at hend
          simpa [endsLog] using hend
        have hnf : ∀ t sts, .flush t sts ∉ w₀.tx.log := fun t sts hf => by
          have : Event.flush t sts ∈ endsLog w₀.tx.log := List.mem_filter.2 ⟨hf, rfl⟩
          rw [hnone] at this
          cases this
        refine ⟨fun hn => absurd (by simp [hlog]) (hn t₀ w₀.tx.cache.dirtySubtrees), fun t sts hf => ?_⟩
        rw [hlog, List.mem_append] at hf
        rcases hf with hf | hf
        · exact absurd hf (hnf t sts)
        · simp only [List.mem_cons, reduceCtorEq, Event.flush.injEq, List.mem_map, false_or,
            and_false, exists_false, or_false] at hf
          obtain ⟨rfl, rfl⟩ := hf
          refine ⟨err, ?_, .inl (by simp [(List.getElem?_eq_some_iff.1 hth).1, Next.after])⟩
          rw [hrev, hlog, bufferLog_append, ih.unflushed hnf]
          simpa [Event.buffered] using hst
    · obtain ⟨es, hes, hbuf, hnf, hrev⟩ : ∃ es, tx'.log = w₀.tx.log ++ es ∧ bufferLog es = [] ∧
          (∀ t sts, .flush t sts ∉ es) ∧ tx'.writeRev = w₀.tx.writeRev := by
        rcases hfs.effects.1 with rfl | ⟨rev, id, rfl⟩
        · exact ⟨[], by simp, rfl, by simp, rfl⟩
        · exact ⟨_, rfl, by simp [Event.buffered], fun _ _ => by split <;> simp, rfl⟩
      rw [World.apply_tx, World.apply_threads hth]
      refine ih.append hes hbuf hnf (fun _ _ _ _ => hrev) fun t err h => ?_
      have ht : t ≠ t₀ := by
        rintro rfl
        obtain ⟨pc, hpc⟩ := Thread.flushing_cases h
        rw [hth] at hpc
        cases hpc
        cases hfs
      simpa only [List.getElem?_set_ne (Ne.symm ht)] using h
/-- A read-write `Commit` refines the history model of `SubtreeData`. Once it has returned `r`,
what Spanner applies of the run is `commitFlush` of the run's `FlushedTX`, whose subtrees are
those the `Flush` handed over: all buffered inserts or none when `r` is nil, and nothing when
`Commit` failed, since the caller then aborts the transaction. -/
theorem commit_refines_commitFlush {w : World} (hw : Reachable E w) {t : Nat}
    {sts : List SubtreeProto} (hf : .flush t sts ∈ w.tx.log) {r : Option Error}
    (hth : w.threads[t]? = some (.commit (.done r))) (tbl : List SubtreeDataRow) :
    commitFlush E.marshal E.bufferWrite tbl ⟨E.treeID, w.tx.writeRev, sts.map some⟩ =
      if r = none then insertRows tbl (bufferLog w.tx.log) else tbl := by
  obtain ⟨err, hst, hth'⟩ := hw.flushInv.flushed t sts hf
  obtain rfl : err = r := by
    rcases hth' with h | h <;> rw [hth] at h <;> cases h
    rfl
  cases err <;> simp [commitFlush, hst]

theorem commit_refines_commitFlush_example :
    ∃ w, Reachable (exampleEnv .readWrite) w ∧
      .flush 1 [⟨.mk [1], 8, .mk [9], [], []⟩] ∈ w.tx.log ∧ w.threads[1]? = some (.commit (.done none)) ∧
      commitFlush (exampleEnv .readWrite).marshal (exampleEnv .readWrite).bufferWrite []
          ⟨(exampleEnv .readWrite).treeID, w.tx.writeRev, [⟨.mk [1], 8, .mk [9], [], []⟩].map some⟩ =
        if (none : Option Error) = none then insertRows [] (bufferLog w.tx.log) else [] := by
  have hw := Reachable.run .init (Option.some_get (show (run (exampleEnv .readWrite)
    (World.init (exampleEnv .readWrite)) [.call (.setMerkleNodes [⟨⟨.mk [1], 8⟩, .mk [9]⟩]),
      .step 0 false, .step 0 false, .step 0 false, .step 0 false, .step 0 false, .call .commit,
      .step 1 false, .step 1 false, .step 1 false]).isSome by decide)).symm
  refine ⟨_, hw, ?hf, ?hth, commit_refines_commitFlush hw ?hf ?hth []⟩
  case hf => decide
  case hth => decide

end TrillianSpanner
