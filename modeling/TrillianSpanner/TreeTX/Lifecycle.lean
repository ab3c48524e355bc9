import TrillianSpanner.TreeTX.Fanout
import TrillianSpanner.SnapshotTX

/-! The life of a transaction over every run. A `treeTX` is closed once, by the first `Commit` or
`Rollback` to take `t.mu`; its scope is ended (`Close` of a read-only transaction, the cache
`Flush` of a read-write one) at most once, by that call when it is a `Commit`; every later look
at `t.stx` finds it closed, and a call that finds it closed returns `ErrTransactionClosed`
(`Close`, nil) without calling the cache or the backend. A `snapshotTX`, whose calls are one
critical section each, returns nil to its first call only. -/

namespace TrillianSpanner

def Event.callsOut : Event → Bool
  | .locked _ _ | .checked _ _ | .closed _ | .returned _ => false
  | .roClose _ | .flush _ _ | .buffer _ _ | .getNodes _ | .setNodeHash _ _ | .read _ _ _
  | .query _ => true

def Event.found : Event → Option Bool
  | .locked _ b | .checked _ b => some b
  | .closed _ | .roClose _ | .flush _ _ | .buffer _ _ | .getNodes _ | .setNodeHash _ _
  | .read _ _ _ | .query _ | .returned _ => none

def Event.ends : Event → Option Scope
  | .roClose _ => some .readOnly
  | .flush _ _ => some .readWrite
  | .locked _ _ | .checked _ _ | .closed _ | .buffer _ _ | .getNodes _ | .setNodeHash _ _
  | .read _ _ _ | .query _ | .returned _ => none

def callsOf (log : List Event) (t : Nat) : List Event :=
  log.filter fun e => e.tid == t && e.callsOut

def foundLog (log : List Event) : List (Nat × Bool) :=
  log.filterMap fun e => e.found.map fun b => (e.tid, b)

def endsLog (log : List Event) : List Event :=
  log.filter fun e => e.ends.isSome

def LockedPc.unchecked : LockedPc → Bool
  | .lock | .body => true
  | .unlock _ | .done _ => false

def LockedPc.result : LockedPc → Option (Option Error)
  | .lock | .body => none
  | .unlock r | .done r => some r

def Thread.quiet : Thread → Bool
  | .commit pc | .rollback pc | .close (.rollback pc) => pc.unchecked
  | .close .isOpen => true
  | .close (.done _) => false
  | .isOpen r => r.isNone
  | .getMerkleNodes _ _ pc _ => pc == .rlock
  | .setMerkleNodes _ pc => pc == .rlock
  | .readRevision _ | .writeRevision _ => false

def Thread.closedOut : Thread → Bool
  | .commit pc | .rollback pc | .close (.rollback pc) => pc.result == some (some .transactionClosed)
  | .close .isOpen => false
  | .close (.done r) => r == none
  | .isOpen r => r == some false
  | .getMerkleNodes _ _ pc fan => pc == .done none (some .transactionClosed) && fan == none
  | .setMerkleNodes _ pc => pc == .done (some .transactionClosed)
  | .readRevision _ | .writeRevision _ => false

def Thread.rollbackResult : Thread → Bool
  | .rollback pc | .close (.rollback pc) =>
    pc.result == none || pc.result == some none || pc.result == some (some .transactionClosed)
  | .close (.done r) => r == none
  | .commit _ | .close .isOpen | .isOpen _ | .getMerkleNodes _ _ _ _ | .setMerkleNodes _ _
  | .readRevision _ | .writeRevision _ => true

def Thread.returned : Thread → Bool
  | .commit (.done _) | .rollback (.done _) | .close (.done _) | .isOpen (some _)
  | .getMerkleNodes _ _ (.done _ _) _ | .setMerkleNodes _ (.done _) | .readRevision (some _)
  | .writeRevision (some _) => true
  | _ => false

def Next.after (th : Thread) : Next → Thread
  | .moves th' => th'
  | .panics _ => th

@[simp] theorem closeResult_eq_none {r : Option Error} :
    closeResult r = none ↔ r = none ∨ r = some .transactionClosed := by
  unfold closeResult; split <;> simp_all

@[simp] theorem callsOf_append (l l' : List Event) (t : Nat) :
    callsOf (l ++ l') t = callsOf l t ++ callsOf l' t := List.filter_append _ _

@[simp] theorem foundLog_append (l l' : List Event) :
    foundLog (l ++ l') = foundLog l ++ foundLog l' := List.filterMap_append _ _ _

@[simp] theorem endsLog_append (l l' : List Event) :
    endsLog (l ++ l') = endsLog l ++ endsLog l' := List.filter_append _ _

theorem ends_isSome {l : List Event} {e : Event} (h : e ∈ endsLog l) : e.ends.isSome = true :=
  (List.mem_filter.1 h).2

section Tids

variable {es : List Event} {t : Nat}

theorem callsOf_of_tids (h : ∀ e ∈ es, e.tid = t) (i : Nat) :
    callsOf es i = if i = t then es.filter Event.callsOut else [] := by
  unfold callsOf
  split
  · subst i
    exact List.filter_congr fun e he => by simp [h e he]
  · exact List.filter_eq_nil_iff.2 fun e he => by simp [h e he, Ne.symm ‹_›]

theorem foundLog_of_tids (h : ∀ e ∈ es, e.tid = t) :
    foundLog es = (es.filterMap Event.found).map fun b => (t, b) := by
  rw [foundLog, List.map_filterMap]
  exact List.filterMap_congr fun e he => by rw [h e he]

theorem lt_of_foundLog {log : List Event} {n : Nat} (h : ∀ e ∈ log, e.tid < n) {b : Bool}
    (hf : (t, b) ∈ foundLog log) : t < n := by
  obtain ⟨e, he, hx⟩ := List.mem_filterMap.1 hf
  obtain ⟨b, -, hb⟩ := Option.map_eq_some'.1 hx
  cases hb
  exact h e he

end Tids

theorem set_of_getElem? {α : Type} {l : List α} {t : Nat} {x : α} (h : l[t]? = some x) :
    l.set t x = l := by
  refine List.ext_getElem? fun i => ?_
  rw [List.getElem?_set]
  split
  · subst ‹t = i›
    simp [h, (List.getElem?_eq_some_iff.1 h).1]
  · rfl

theorem World.apply_threads {w : World} {t : Nat} {th : Thread} (hth : w.threads[t]? = some th)
    (tx : TX) (n : Next) : (w.apply t (tx, n)).threads = w.threads.set t (n.after th) := by
  cases n with
  | moves th' => rfl
  | panics p => exact (set_of_getElem? hth).symm

theorem Thread.unlocking_of_returned {th : Thread} (h : th.returned = true) :
    th.unlocking = false := by
  cases th with
  | commit pc | rollback pc => cases pc <;> simp_all [Thread.returned, Thread.unlocking]
  | close pc => rcases pc with _ | pc | _ <;> simp_all [Thread.returned, Thread.unlocking]
  | _ => rfl

@[simp] theorem Call.start_rollbackResult (c : Call) : c.start.rollbackResult = true := by
  cases c <;> rfl

structure LifeStep (tx : TX) (th th' : Thread) (es : List Event) : Prop where
  found : ∀ b ∈ es.filterMap Event.found, b = tx.stx.isSome
  closed : closedLog es ≠ [] → es.filterMap Event.found = []
  quiet : th'.quiet = true → th.quiet = true ∧ es.filter Event.callsOut = []
  closedOut : th.closedOut = true → th'.closedOut = true ∧ es.filter Event.callsOut = []
  foundClosed : false ∈ es.filterMap Event.found →
    th.quiet = true ∧ th'.closedOut = true ∧ es.filter Event.callsOut = []
  ends : endsLog es ≠ [] → th = .commit .body ∧ ∃ e, endsLog es = [e] ∧ e.ends = tx.stx
  commit : ∀ pc, th = .commit pc → ∃ pc', th' = .commit pc'
  results : th.rollbackResult = true → th'.rollbackResult = true

theorem LifeStep.busy {tx : TX} {th th' : Thread} {es : List Event}
    (hf : es.filterMap Event.found = []) (he : endsLog es = []) (hq' : th'.quiet = false)
    (hc : th.closedOut = false) (hcm : ∀ pc, th ≠ .commit pc) (hr : th'.rollbackResult = true) :
    LifeStep tx th th' es where
  found := by simp [hf]
  closed _ := hf
  quiet h := by simp [hq'] at h
  closedOut h := by simp [hc] at h
  foundClosed h := by simp [hf] at h
  ends h := absurd he h
  commit pc h := absurd h (hcm pc)
  results _ := hr

variable {E : Env}

theorem ThreadStep.lifeStep {h w k b : Bool} {t : Nat} {th : Thread} {tx tx' : TX} {n : Next}
    (hs : ThreadStep E h w k t b th tx tx' n) (hg : GetInv E th) :
    LifeStep tx th (n.after th) (tx'.log.drop tx.log.length) := by
  cases hs
  case handlerReturn | recvErr | recvSubtree | rootPanic | rootError | root | setReturn | setHit
    | setMiss | loadPanic | loadError | load | readPanic | readError | readNil | read | writePanic
    | writeError | write =>
    (try rcases TX.getLatestRoot_ok ‹_› with ⟨-, rfl⟩ | ⟨-, -, rfl⟩) <;>
      exact .busy (by simp [Event.found]) (by simp [endsLog, Event.ends]) rfl rfl (by simp) rfl
  all_goals
    suffices h : _ ∧ _ ∧ _ ∧ _ ∧ _ ∧ _ ∧ _ ∧ _ from
      ⟨h.1, h.2.1, h.2.2.1, h.2.2.2.1, h.2.2.2.2.1, h.2.2.2.2.2.1, h.2.2.2.2.2.2.1, h.2.2.2.2.2.2.2⟩
    (try cases ‹LockedStep _ _ _ _ _ _ _ _›) <;> (try contradiction) <;>
      (try obtain rfl : _ = none := hg) <;>
      simp [Next.after, Event.found, Event.callsOut, Event.ends, endsLog, closedLog, Thread.quiet,
        Thread.closedOut, Thread.rollbackResult, LockedPc.unchecked, LockedPc.result,
        List.filterMap_append, List.filter_append, *]
  exact .inr

theorem FetchStep.lifeEvents {t j : Nat} {th : Thread} {tx tx' : TX} {n : Next}
    (hs : FetchStep E t j th tx tx' n) :
    ∃ es, tx'.log = tx.log ++ es ∧ (∀ e ∈ es, e.tid = t) ∧ es.filterMap Event.found = [] ∧
      endsLog es = [] ∧ ∃ rev ids pc f f', th = .getMerkleNodes rev ids pc (some f) ∧
      n.after th = .getMerkleNodes rev ids pc (some f') := by
  cases hs
  case getPanic | get =>
    refine ⟨_, rfl, ?_⟩
    split <;> simp [Next.after, Event.tid, endsLog, Event.found, Event.ends]
  all_goals exact ⟨[], by simp, by simp [Next.after, endsLog]⟩

structure LifeInv (E : Env) (log : List Event) (ths : List Thread) : Prop where
  quiet : ∀ (t : Nat) (th : Thread), ths[t]? = some th → th.quiet = true → callsOf log t = []
  closedOut : ∀ (t : Nat) (th : Thread), ths[t]? = some th → (t, false) ∈ foundLog log →
    th.closedOut = true ∧ callsOf log t = []
  afterClose : ∀ pre post c, log = pre ++ .closed c :: post → ∀ x ∈ foundLog post, x.2 = false
  ends : ∀ e ∈ endsLog log, e.ends = some E.scope ∧ (∃ rest, lockedLog log = (e.tid, true) :: rest) ∧
    ∃ pc, ths[e.tid]? = some (.commit pc)
  endsOnce : (endsLog log).length ≤ 1
  results : ∀ (t : Nat) (th : Thread), ths[t]? = some th → th.rollbackResult = true

section Preservation

variable {w : World} {t : Nat} {th : Thread}

theorem Phase.stx_none {tx : TX} {ths : List Thread} (hp : Phase E tx ths)
    (hc : closedLog tx.log ≠ []) : tx.stx = none := by
  cases hp <;> simp_all

theorem LockInv.first_of_inBody (hi : LockInv E w) (hth : w.threads[t]? = some th)
    (hb : th.inBody = true) (hstx : w.tx.stx.isSome) :
    lockedLog w.tx.log = [] ∧ w.tx.stx = some E.scope := by
  rcases hi.phase with ⟨h1, h2, -, -⟩ | ⟨t₀, th₀, -, -, -, h4, h5⟩ | ⟨-, -, h1, -⟩
  · exact ⟨h2, h1⟩
  · obtain rfl := hi.mx t₀ t th₀ th h4 hth (Thread.holdsWrite_of_unlocking h5)
      (.inl (Thread.holdsWrite_of_inBody hb))
    rw [hth] at h4
    cases h4
    simp [Thread.unlocking_eq_false hb] at h5
  · simp [h1] at hstx

theorem closedLog_ne_nil {l : List Event} {c : Nat} (h : .closed c ∈ l) : closedLog l ≠ [] :=
  List.ne_nil_of_mem (List.mem_filterMap.2 ⟨_, h, rfl⟩)

theorem append_eq_cons_cases {log es pre post : List Event} {x : Event}
    (h : log ++ es = pre ++ x :: post) :
    (∃ post', log = pre ++ x :: post' ∧ post = post' ++ es) ∨ (x ∈ es ∧ post <:+ es) := by
  rcases List.append_eq_append_iff.1 h with ⟨a', rfl, h'⟩ | ⟨c', rfl, h'⟩
  · exact .inr ⟨h' ▸ List.mem_append_right _ (List.mem_cons_self _ _),
      h' ▸ (List.suffix_cons x post).trans (List.suffix_append a' _)⟩
  · cases c' with
    | nil =>
      simp only [List.nil_append, List.append_nil] at h' ⊢
      exact .inr ⟨h' ▸ List.mem_cons_self _ _, h' ▸ List.suffix_cons x post⟩
    | cons y c'' =>
      simp only [List.cons_append, List.cons.injEq] at h'
      obtain ⟨rfl, rfl⟩ := h'
      exact .inl ⟨c'', rfl, rfl⟩

theorem ThreadStep.locked_first {h w k b : Bool} {tx tx' : TX} {n : Next}
    (hs : ThreadStep E h w k t b th tx tx' n) (hb : th = .commit .body) :
    lockedLog tx'.log = lockedLog tx.log ++ [(t, tx.stx.isSome)] := by
  rcases hs.phase_effects with ⟨-, -, h, -⟩ | ⟨hu, -⟩ | ⟨hb', -⟩
  · exact h
  · simp [hb, Thread.unlocking] at hu
  · simp [hb, Thread.inBody] at hb'

theorem LifeInv.call_step {ths : List Thread} {log : List Event} (hl : LifeInv E log ths)
    (htids : ∀ e ∈ log, e.tid < ths.length) (c : Call) : LifeInv E log (ths ++ [c.start]) := by
  have old : ∀ {i : Nat} {x : Thread}, i < ths.length → (ths ++ [c.start])[i]? = some x →
      ths[i]? = some x := fun hi h => (List.getElem?_append_left hi).symm.trans h
  refine ⟨fun i x hx hq => ?_, fun i x hx hf => ?_, hl.afterClose, fun e he => ?_, hl.endsOnce,
    fun i x hx => ?_⟩
  · rcases getElem?_append_singleton hx with hx | ⟨rfl, rfl⟩
    · exact hl.quiet i x hx hq
    · exact List.filter_eq_nil_iff.2 fun e he => by simp [(htids e he).ne]
  · exact hl.closedOut i x (old (lt_of_foundLog htids hf) hx) hf
  · obtain ⟨h1, h2, pc, hpc⟩ := hl.ends e he
    exact ⟨h1, h2, pc, (List.getElem?_append_left (List.getElem?_eq_some_iff.1 hpc).1).trans hpc⟩
  · rcases getElem?_append_singleton hx with hx | ⟨rfl, rfl⟩
    · exact hl.results i x hx
    · simp

theorem LifeInv.append (hl : LifeInv E w.tx.log w.threads) (hp : Phase E w.tx w.threads)
    (hth : w.threads[t]? = some th) {es : List Event} {th' : Thread} (htid : ∀ e ∈ es, e.tid = t)
    (ls : LifeStep w.tx th th' es)
    (hfirst : endsLog es ≠ [] →
      lockedLog w.tx.log = [] ∧ w.tx.stx = some E.scope ∧ lockedLog es = [(t, true)]) :
    LifeInv E (w.tx.log ++ es) (w.threads.set t th') := by
  have ht : t < w.threads.length := (List.getElem?_eq_some_iff.1 hth).1
  have hnew : (w.threads.set t th')[t]? = some th' := by simp [ht]
  refine ⟨fun i x hx hq => ?_, fun i x hx hf => ?_, fun pre post c hlog x hx => ?_, fun e he => ?_,
    ?_, fun i x hx => ?_⟩
  · rw [callsOf_append, callsOf_of_tids htid]
    rcases getElem?_set_of hx with ⟨rfl, rfl⟩ | ⟨hne, hx⟩
    · obtain ⟨hq₀, hc⟩ := ls.quiet hq
      simp [hl.quiet i th hth hq₀, hc]
    · simp [hl.quiet i x hx hq, hne]
  · rw [callsOf_append, callsOf_of_tids htid]
    rw [foundLog_append, foundLog_of_tids htid, List.mem_append, List.mem_map] at hf
    rcases getElem?_set_of hx with ⟨rfl, rfl⟩ | ⟨hne, hx⟩
    · rcases hf with hf | ⟨_, hf, hb⟩
      · obtain ⟨hc, hcalls⟩ := hl.closedOut i th hth hf
        obtain ⟨hc', hes'⟩ := ls.closedOut hc
        simp [hc', hcalls, hes']
      · cases hb
        obtain ⟨hq, hc', hes'⟩ := ls.foundClosed hf
        simp [hc', hl.quiet i th hth hq, hes']
    · rcases hf with hf | ⟨_, -, hb⟩
      · simpa [hne] using hl.closedOut i x hx hf
      · cases hb; exact absurd rfl hne
  · rcases append_eq_cons_cases hlog with ⟨post', hold, rfl⟩ | ⟨hc, s, rfl⟩
    · have hstx := hp.stx_none (closedLog_ne_nil (show Event.closed c ∈ w.tx.log by simp [hold]))
      rw [foundLog_append, foundLog_of_tids htid, List.mem_append, List.mem_map] at hx
      rcases hx with hx | ⟨b, hb, rfl⟩
      · exact hl.afterClose pre post' c hold x hx
      · simpa [hstx] using ls.found b hb
    · have hnil := ls.closed (closedLog_ne_nil hc)
      rw [List.filterMap_append, List.append_eq_nil] at hnil
      rw [foundLog_of_tids fun e he => htid e (List.mem_append_right s he), hnil.2] at hx
      cases hx
  · rw [endsLog_append, List.mem_append] at he
    rcases he with he | he
    · obtain ⟨h1, ⟨rest, hr⟩, pc, hpc⟩ := hl.ends e he
      refine ⟨h1, ⟨rest ++ lockedLog es, by simp [hr]⟩, ?_⟩
      by_cases het : e.tid = t
      · rw [het] at hpc ⊢
        rw [hth] at hpc
        obtain ⟨pc', hpc'⟩ := ls.commit pc (Option.some.inj hpc)
        exact ⟨pc', hpc' ▸ hnew⟩
      · exact ⟨pc, by simpa [List.getElem?_set, Ne.symm het] using hpc⟩
    · obtain ⟨hbody, e', he', he'scope⟩ := ls.ends (List.ne_nil_of_mem he)
      obtain ⟨hfl, hscope, hles⟩ := hfirst (List.ne_nil_of_mem he)
      rw [he', List.mem_singleton] at he
      subst e'
      rw [htid e (List.mem_of_mem_filter (he' ▸ List.mem_singleton_self e : e ∈ endsLog es))]
      obtain ⟨pc', hpc'⟩ := ls.commit .body hbody
      exact ⟨he'scope.trans hscope, ⟨[], by simp [hfl, hles]⟩, pc', hpc' ▸ hnew⟩
  · rw [endsLog_append, List.length_append]
    by_cases hne : endsLog es = []
    · simpa [hne] using hl.endsOnce
    · obtain ⟨-, e', he', -⟩ := ls.ends hne
      have hold : endsLog w.tx.log = [] := List.eq_nil_iff_forall_not_mem.2 fun e he => by
        obtain ⟨-, ⟨rest, hr⟩, -⟩ := hl.ends e he
        simp [(hfirst hne).1] at hr
      simp [hold, he']
  · rcases getElem?_set_of hx with ⟨rfl, rfl⟩ | ⟨-, hx⟩
    · exact ls.results (hl.results i th hth)
    · exact hl.results i x hx

theorem LifeInv.thread_step (hl : LifeInv E w.tx.log w.threads) (hi : LockInv E w)
    (hth : w.threads[t]? = some th) (hg : GetInv E th) {b : Bool} {tx' : TX} {n : Next}
    (hts : ThreadStep E w.held w.writeHeld w.cacheHeld t b th w.tx tx' n) :
    LifeInv E tx'.log (w.threads.set t (n.after th)) := by
  obtain ⟨es, hes, htid⟩ := hts.log_extends
  have ls : LifeStep w.tx th (n.after th) es := by simpa [hes] using hts.lifeStep hg
  rw [hes]
  refine hl.append hi.phase hth htid ls fun hne => ?_
  obtain ⟨hbody, e, he, hscope⟩ := ls.ends hne
  have hsome : w.tx.stx.isSome := by
    simpa [← hscope] using ends_isSome (he ▸ List.mem_singleton_self e)
  obtain ⟨hfl, hstx⟩ := hi.first_of_inBody hth (by simp [hbody, Thread.inBody]) hsome
  have hlocked := hts.locked_first hbody
  rw [hes, lockedLog_append, hfl] at hlocked
  exact ⟨hfl, hstx, by simpa [hstx] using hlocked⟩

theorem LifeInv.fetch_step (hl : LifeInv E w.tx.log w.threads) (hi : LockInv E w)
    (hth : w.threads[t]? = some th) (hg : GetInv E th) {j : Nat} {tx' : TX} {n : Next}
    (hfs : FetchStep E t j th w.tx tx' n) :
    LifeInv E tx'.log (w.threads.set t (n.after th)) := by
  obtain ⟨es, hes, htid, hfound, hends, rev, ids, pc, f, f', rfl, hafter⟩ := hfs.lifeEvents
  have hquiet : (Thread.getMerkleNodes rev ids pc (some f')).quiet = false := by
    cases pc <;> simp_all [Thread.quiet, GetInv]
  rw [hes, hafter]
  exact hl.append hi.phase hth htid
    (.busy hfound hends hquiet (by simp [Thread.closedOut]) (fun _ h => by cases h) rfl)
    fun h => absurd hends h

theorem LifeInv.init : LifeInv E [] [] :=
  ⟨fun _ _ h => by simp at h, fun _ _ h => by simp at h, fun _ _ _ h => by simp at h,
    fun _ h => by simp [endsLog] at h, by simp [endsLog], fun _ _ h => by simp at h⟩

end Preservation

theorem Reachable.lifeInv {w : World} (hw : Reachable E w) : LifeInv E w.tx.log w.threads := by
  induction hw with
  | init => exact LifeInv.init
  | @step w₀ w₁ a hw hs ih =>
    rcases step_cases hs with ⟨c, rfl⟩ | ⟨t, b, th, tx', n, hth, hts, rfl⟩ |
      ⟨t, j, th, tx', n, hth, hfs, rfl⟩
    · exact ih.call_step hw.lockInv.tids c
    · rw [World.apply_tx, World.apply_threads hth]
      exact ih.thread_step hw.lockInv hth (hw.getInv t th hth) hts
    · rw [World.apply_tx, World.apply_threads hth]
      exact ih.fetch_step hw.lockInv hth (hw.getInv t th hth) hfs

theorem Phase.lock_order {tx : TX} {ths : List Thread} (hp : Phase E tx ths) :
    (lockedLog tx.log = [] ∧ closedLog tx.log = [] ∧ tx.stx = some E.scope) ∨
    ∃ t rest, lockedLog tx.log = (t, true) :: rest ∧ (∀ x ∈ rest, x.2 = false) ∧
      (closedLog tx.log = [] ∨ closedLog tx.log = [t] ∧ tx.stx = none) ∧
      ∀ th, ths[t]? = some th → th.returned = true → closedLog tx.log = [t] ∧ tx.stx = none := by
  cases hp with
  | isOpen h1 h2 h3 => exact .inl ⟨h2, h3, h1⟩
  | closing t th _ h2 h3 h4 h5 =>
    refine .inr ⟨t, [], h2, by simp, .inl h3, fun th' h hr => ?_⟩
    rw [h4] at h
    cases h
    simp [Thread.unlocking_of_returned hr] at h5
  | closed t rest h1 h2 h3 h4 => exact .inr ⟨t, rest, h2, h3, .inr ⟨h4, h1⟩, fun _ _ _ => ⟨h4, h1⟩⟩

def Thread.closeReturned : Thread → Bool
  | .commit (.done _) | .rollback (.done _) | .close (.done _) => true
  | _ => false

theorem ThreadStep.stx_of_closeReturned {h w k b : Bool} {t : Nat} {th : Thread} {tx tx' : TX}
    {n : Next} (hs : ThreadStep E h w k t b th tx tx' n) (hr : (n.after th).closeReturned = true) :
    tx'.stx = none := by
  cases hs <;> (try cases ‹LockedStep _ _ _ _ _ _ _ _›) <;> simp_all [Thread.closeReturned, Next.after]

theorem Reachable.stx_of_closeReturned {w : World} (hw : Reachable E w) :
    ∀ (t : Nat) (th : Thread), w.threads[t]? = some th → th.closeReturned = true → w.tx.stx = none := by
  induction hw with
  | init => intro t th h; simp [World.init] at h
  | @step w₀ w₁ a hw hs ih =>
    rcases step_cases hs with ⟨c, rfl⟩ | ⟨t₀, b, th₀, tx', n, hth, hts, rfl⟩ |
      ⟨t₀, j, th₀, tx', n, hth, hfs, rfl⟩
    · intro t th hi hr
      rcases getElem?_append_singleton hi with hi | ⟨-, rfl⟩
      · exact ih t th hi hr
      · cases c <;> cases hr
    · have hstx : tx'.stx = w₀.tx.stx ∨ tx'.stx = none := by
        rcases hts.phase_effects with ⟨-, h, -⟩ | ⟨-, h, -⟩ | ⟨-, -, h, -⟩ <;> simp [h]
      intro t th hi hr
      rw [World.apply_threads hth] at hi
      rw [World.apply_tx]
      rcases getElem?_set_of hi with ⟨rfl, rfl⟩ | ⟨-, hi⟩
      · exact hts.stx_of_closeReturned hr
      · exact hstx.elim (fun h => h ▸ ih t th hi hr) id
    · have hstx : tx'.stx = w₀.tx.stx := by rcases hfs.effects.1 with rfl | ⟨rev, id, rfl⟩ <;> rfl
      intro t th hi hr
      rw [World.apply_threads hth] at hi
      rw [World.apply_tx, hstx]
      rcases getElem?_set_of hi with ⟨rfl, rfl⟩ | ⟨-, hi⟩
      · cases hfs <;> cases hr
      · exact ih t th hi hr

/-- The life of a transaction. In every reachable world of a `treeTX`, the first `Commit` or
`Rollback` to take `t.mu` finds it open and closes it, and every later one finds it closed; the
scope is ended at most once, by the flush of a first read-write `Commit` or the `Close` of a
read-only one; every look at `t.stx` after the close finds it closed, and the call returns
`ErrTransactionClosed` with no cache or backend call; `Close` returns nil; and a `Commit`,
`Rollback` or `Close` that has returned leaves `t.stx` nil. A `snapshotTX` returns nil to its
first call only. -/
theorem transaction_closes_once :
    (∀ (E : Env) (w : World), Reachable E w →
      ((lockedLog w.tx.log = [] ∧ closedLog w.tx.log = [] ∧ w.tx.stx = some E.scope) ∨
        ∃ t rest, lockedLog w.tx.log = (t, true) :: rest ∧ (∀ x ∈ rest, x.2 = false) ∧
          (closedLog w.tx.log = [] ∨ closedLog w.tx.log = [t] ∧ w.tx.stx = none) ∧
          ∀ th, w.threads[t]? = some th → th.returned = true →
            closedLog w.tx.log = [t] ∧ w.tx.stx = none) ∧
      (∀ t sts, .flush t sts ∈ w.tx.log → E.scope = .readWrite ∧
        (∃ rest, lockedLog w.tx.log = (t, true) :: rest) ∧ ∃ pc, w.threads[t]? = some (.commit pc)) ∧
      (endsLog w.tx.log).length ≤ 1 ∧
      (∀ pre c post, w.tx.log = pre ++ .closed c :: post → ∀ x ∈ foundLog post, x.2 = false) ∧
      (∀ t th, w.threads[t]? = some th → (t, false) ∈ foundLog w.tx.log →
        th.closedOut = true ∧ callsOf w.tx.log t = []) ∧
      (∀ (t : Nat) (r : Option Error), w.threads[t]? = some (.close (.done r)) → r = none) ∧
      ∀ (t : Nat) (r : Option Error), w.threads[t]? = some (.commit (.done r)) ∨
        w.threads[t]? = some (.rollback (.done r)) ∨ w.threads[t]? = some (.close (.done r)) →
        w.tx.stx = none) ∧
    ∀ (sc : Scope) (c : SnapshotCall) (cs : List SnapshotCall),
      (SnapshotTX.mk (some sc) 0).run (c :: cs) =
        (⟨none, if sc = .readOnly then 1 else 0⟩, none :: cs.map fun _ => some .transactionClosed) := by
  refine ⟨fun E w hw => ?_, fun sc c cs => ?_⟩
  · have hl := hw.lifeInv
    refine ⟨hw.lockInv.phase.lock_order, fun t sts hf => ?_, hl.endsOnce,
      fun pre c post h => hl.afterClose pre post c h, hl.closedOut,
      fun t r h => by simpa [Thread.rollbackResult] using hl.results t _ h,
      fun t r h => by rcases h with h | h | h <;> exact hw.stx_of_closeReturned t _ h rfl⟩
    obtain ⟨h1, h2, h3⟩ := hl.ends _ (List.mem_filter.2 ⟨hf, rfl⟩)
    exact ⟨(Option.some.inj h1).symm, h2, h3⟩
  · cases c <;> simp [SnapshotTX.run, SnapshotCall.apply, SnapshotTX.commit, SnapshotTX.rollback,
      SnapshotTX.close, SnapshotTX.run_closed]

/-- The `Close` of a read-only transaction is called only by a `Commit` that is the first call to
take `t.mu`: when the first is a `Rollback`, or the `Rollback` of a `Close`, it is never called,
though the transaction is closed. -/
theorem readOnly_closed_only_by_commit {w : World} (hw : Reachable E w) {t : Nat}
    {rest : List (Nat × Bool)} (hfirst : lockedLog w.tx.log = (t, true) :: rest) {th : Thread}
    (hth : w.threads[t]? = some th) (hnc : ∀ pc, th ≠ .commit pc) :
    ∀ t', .roClose t' ∉ w.tx.log := by
  intro t' hr
  obtain ⟨-, ⟨rest', hr'⟩, pc, hpc⟩ := hw.lifeInv.ends _ (List.mem_filter.2 ⟨hr, rfl⟩)
  rw [hfirst, List.cons.injEq, Prod.mk.injEq] at hr'
  obtain rfl : t = t' := hr'.1.1
  exact hnc pc (Option.some.inj (hth.symm.trans hpc))

/-- A `Rollback` closes a read-only transaction, and `IsOpen` then returns false, but its
`ReadOnlyTransaction` is never closed. -/
theorem readOnly_rollback_leaves_scope_open :
    ∃ w, Reachable (exampleEnv .readOnly) w ∧
      w.threads = [.rollback (.done none), .isOpen (some false)] ∧ w.tx.stx = none ∧
      ∀ t, .roClose t ∉ w.tx.log := by
  have hw := Reachable.run .init (Option.some_get (show (run (exampleEnv .readOnly)
    (World.init (exampleEnv .readOnly)) [.call .rollback, .step 0 false, .step 0 false,
      .step 0 false, .call .isOpen, .step 1 false]).isSome by decide)).symm
  exact ⟨_, hw, by decide, by decide,
    @readOnly_closed_only_by_commit _ _ hw 0 [] (by decide) (.rollback (.done none)) (by decide)
      (by simp)⟩

/-- The doc comments of `Commit` and `Rollback`: on return from the call the transaction is in a
closed state. So too on the return of `Close`, and in every later state of the run, whatever
the other calls do. -/
theorem closing_calls_return_closed {w : World} (hw : Reachable E w) {t : Nat} {r : Option Error}
    (hth : w.threads[t]? = some (.commit (.done r)) ∨ w.threads[t]? = some (.rollback (.done r)) ∨
      w.threads[t]? = some (.close (.done r))) :
    w.tx.stx = none := by
  rcases hth with h | h | h <;> exact hw.stx_of_closeReturned t _ h rfl

/-- A `Close` whose `IsOpen` found the transaction open while a `Commit` closed it before its
`Rollback` took `t.mu`: both return nil, and the transaction is closed. -/
theorem closing_calls_return_closed_example :
    ∃ w, Reachable (exampleEnv .readWrite) w ∧ w.threads[1]? = some (.close (.done none)) ∧
      w.threads[0]? = some (.commit (.done none)) ∧ w.tx.stx = none := by
  have hw := Reachable.run .init (Option.some_get (show (run (exampleEnv .readWrite)
    (World.init (exampleEnv .readWrite)) [.call .commit, .call .close, .step 1 false,
      .step 0 false, .step 0 false, .step 0 false, .step 1 false, .step 1 false,
      .step 1 false]).isSome by decide)).symm
  refine ⟨_, hw, ?hth, by decide, closing_calls_return_closed hw (.inr (.inr ?hth))⟩
  case hth => decide

end TrillianSpanner
