import TrillianSpanner.TreeTX.Steps

/-! `t.mu` and `t.stx` over every run. A call holding `t.mu` for writing is its only holder, a
call holding it for reading sees `t.stx` open, and the transaction is open, closing (its first
`Commit` or `Rollback` is in the deferred unlock) or closed, as the lock events of the log
record. -/

namespace TrillianSpanner

def Thread.inBody : Thread → Bool
  | .commit .body | .rollback .body | .close (.rollback .body) => true
  | _ => false

def Thread.unlocking : Thread → Bool
  | .commit (.unlock _) | .rollback (.unlock _) | .close (.rollback (.unlock _)) => true
  | _ => false

theorem Thread.holdsWrite_of_unlocking {th : Thread} (h : th.unlocking = true) :
    th.holdsWrite = true := by
  cases th with
  | commit pc | rollback pc => cases pc <;> simp_all [Thread.unlocking, Thread.holdsWrite]
  | close pc =>
    rcases pc with _ | pc | _ <;> (try cases pc) <;> simp_all [Thread.unlocking, Thread.holdsWrite]
  | _ => simp [Thread.unlocking] at h

theorem Thread.holdsWrite_of_inBody {th : Thread} (h : th.inBody = true) : th.holdsWrite = true := by
  cases th with
  | commit pc | rollback pc => cases pc <;> simp_all [Thread.inBody, Thread.holdsWrite]
  | close pc =>
    rcases pc with _ | pc | _ <;> (try cases pc) <;> simp_all [Thread.inBody, Thread.holdsWrite]
  | _ => simp [Thread.inBody] at h

theorem Thread.holdsRead_eq_false {th : Thread} (h : th.holdsWrite = true) : th.holdsRead = false := by
  cases th with
  | getMerkleNodes _ _ pc _ => cases pc <;> simp_all [Thread.holdsWrite]
  | setMerkleNodes _ pc => cases pc <;> simp_all [Thread.holdsWrite]
  | _ => rfl

theorem Thread.unlocking_eq_false {th : Thread} (h : th.inBody = true) : th.unlocking = false := by
  cases th with
  | commit pc | rollback pc => cases pc <;> simp_all [Thread.inBody, Thread.unlocking]
  | close pc =>
    rcases pc with _ | pc | _ <;> (try cases pc) <;> simp_all [Thread.inBody, Thread.unlocking]
  | _ => rfl

@[simp] theorem Call.start_holdsWrite (c : Call) : c.start.holdsWrite = false := by cases c <;> rfl
@[simp] theorem Call.start_holdsRead (c : Call) : c.start.holdsRead = false := by cases c <;> rfl
@[simp] theorem Call.start_unlocking (c : Call) : c.start.unlocking = false := by cases c <;> rfl

theorem getElem?_append_singleton {α : Type} {l : List α} {x y : α} {i : Nat}
    (h : (l ++ [x])[i]? = some y) : l[i]? = some y ∨ (i = l.length ∧ y = x) := by
  rw [List.getElem?_append] at h
  split at h
  · exact .inl h
  · rename_i hi
    have hi' : i - l.length < 1 := by
      by_contra hc
      rw [List.getElem?_eq_none (by simp; omega)] at h
      cases h
    simp only [show i - l.length = 0 by omega, List.getElem?_cons_zero, Option.some.injEq] at h
    exact .inr ⟨by omega, h.symm⟩

theorem getElem?_set_of {α : Type} {l : List α} {t i : Nat} {x y : α}
    (h : (l.set t x)[i]? = some y) : (i = t ∧ y = x) ∨ (i ≠ t ∧ l[i]? = some y) := by
  rw [List.getElem?_set] at h
  split at h
  · split at h
    · cases h; exact .inl ⟨by omega, rfl⟩
    · cases h
  · exact .inr ⟨Ne.symm ‹_›, h⟩

def MutualExclusion (ths : List Thread) : Prop :=
  ∀ (i j : Nat) (thi thj : Thread), ths[i]? = some thi → ths[j]? = some thj → thi.holdsWrite = true →
    thj.holdsWrite = true ∨ thj.holdsRead = true → i = j

def lockedLog (log : List Event) : List (Nat × Bool) :=
  log.filterMap fun
    | .locked t b => some (t, b)
    | _ => none

def closedLog (log : List Event) : List Nat :=
  log.filterMap fun
    | .closed t => some t
    | _ => none

@[simp] theorem lockedLog_append (l l' : List Event) :
    lockedLog (l ++ l') = lockedLog l ++ lockedLog l' := List.filterMap_append _ _ _

@[simp] theorem closedLog_append (l l' : List Event) :
    closedLog (l ++ l') = closedLog l ++ closedLog l' := List.filterMap_append _ _ _

@[simp] theorem closedLog_ite (c : Prop) [Decidable c] (t : Nat) :
    closedLog (if c then [.closed t] else []) = if c then [t] else [] := by
  split <;> rfl

@[simp] theorem lockedLog_ite (c : Prop) [Decidable c] (t : Nat) :
    lockedLog (if c then [.closed t] else []) = [] := by
  split <;> rfl

@[simp] theorem lockedLog_read_ite (c : Prop) [Decidable c] (t : Nat) (rev : Int)
    (s : Option Scope) : lockedLog (if c then [.read t rev s] else []) = [] := by
  split <;> rfl

@[simp] theorem closedLog_read_ite (c : Prop) [Decidable c] (t : Nat) (rev : Int)
    (s : Option Scope) : closedLog (if c then [.read t rev s] else []) = [] := by
  split <;> rfl

inductive Phase (E : Env) (tx : TX) (ths : List Thread) : Prop
  | isOpen : tx.stx = some E.scope → lockedLog tx.log = [] → closedLog tx.log = [] →
      (∀ (i : Nat) (th : Thread), ths[i]? = some th → th.unlocking = false) → Phase E tx ths
  | closing (t : Nat) (th : Thread) : tx.stx = some E.scope → lockedLog tx.log = [(t, true)] →
      closedLog tx.log = [] → ths[t]? = some th → th.unlocking = true → Phase E tx ths
  | closed (t : Nat) (rest : List (Nat × Bool)) : tx.stx = none →
      lockedLog tx.log = (t, true) :: rest → (∀ x ∈ rest, x.2 = false) → closedLog tx.log = [t] →
      (∀ (i : Nat) (th : Thread), ths[i]? = some th → th.holdsRead = false) → Phase E tx ths

structure LockInv (E : Env) (w : World) : Prop where
  tids : ∀ e ∈ w.tx.log, e.tid < w.threads.length
  mx : MutualExclusion w.threads
  phase : Phase E w.tx w.threads

variable {E : Env}

section Effects

variable {h w k b : Bool} {t j : Nat} {th : Thread} {tx tx' : TX} {n : Next}

theorem ThreadStep.log_extends (hs : ThreadStep E h w k t b th tx tx' n) :
    ∃ es, tx'.log = tx.log ++ es ∧ ∀ e ∈ es, e.tid = t := by
  suffices h : tx.log <+: tx'.log ∧ ∀ e ∈ tx'.log.drop tx.log.length, e.tid = t from
    ⟨_, (List.prefix_iff_eq_append.1 h.1).symm, h.2⟩
  cases hs <;> (try cases ‹LockedStep _ _ _ _ _ _ _ _›) <;>
    (try rcases TX.getLatestRoot_ok ‹_› with ⟨-, rfl⟩ | ⟨-, -, rfl⟩) <;>
    simp +contextual [or_imp, forall_and, Event.tid]

theorem ThreadStep.holdsWrite {th' : Thread} (hs : ThreadStep E h w k t b th tx tx' (.moves th'))
    (hw : th'.holdsWrite = true) : th.holdsWrite = true ∨ h = false := by
  cases hs <;> (try cases ‹LockedStep _ _ _ _ _ _ _ _›) <;>
    simp_all [Thread.holdsWrite, closeAt]

theorem ThreadStep.holdsRead {th' : Thread} (hs : ThreadStep E h w k t b th tx tx' (.moves th'))
    (hr : th'.holdsRead = true) : th.holdsRead = true ∨ (w = false ∧ tx.stx.isSome) := by
  cases hs <;> (try cases ‹LockedStep _ _ _ _ _ _ _ _›) <;>
    simp_all [Thread.holdsRead, closeAt]

theorem LockedStep.phase {c : Bool} {pc pc' : LockedPc} (hl : LockedStep E h t c pc tx tx' pc') :
    (pc = .body ∧ tx'.stx = tx.stx ∧ lockedLog tx'.log = lockedLog tx.log ++ [(t, tx.stx.isSome)] ∧
      closedLog tx'.log = closedLog tx.log ∧ ∃ r, pc' = .unlock r) ∨
    (∃ r, pc = .unlock r ∧ pc' = .done r ∧ tx'.stx = none ∧ lockedLog tx'.log = lockedLog tx.log ∧
      closedLog tx'.log = closedLog tx.log ++ (if tx.stx.isSome then [t] else [])) ∨
    (pc = .lock ∧ pc' = .body ∧ tx' = tx) := by
  cases hl <;> simp_all [lockedLog, closedLog]
  split <;> rfl

theorem ThreadStep.phase_effects (hs : ThreadStep E h w k t b th tx tx' n) :
    (th.inBody = true ∧ tx'.stx = tx.stx ∧
      lockedLog tx'.log = lockedLog tx.log ++ [(t, tx.stx.isSome)] ∧
      closedLog tx'.log = closedLog tx.log ∧ ∃ th', n = .moves th' ∧ th'.unlocking = true) ∨
    (th.unlocking = true ∧ tx'.stx = none ∧ lockedLog tx'.log = lockedLog tx.log ∧
      closedLog tx'.log = closedLog tx.log ++ (if tx.stx.isSome then [t] else []) ∧
      ∃ th', n = .moves th' ∧ th'.unlocking = false) ∨
    (th.inBody = false ∧ th.unlocking = false ∧ tx'.stx = tx.stx ∧
      lockedLog tx'.log = lockedLog tx.log ∧ closedLog tx'.log = closedLog tx.log ∧
      ∀ th', n = .moves th' → th'.unlocking = false) := by
  cases hs
  case commit | rollback =>
    rcases LockedStep.phase ‹_› with ⟨rfl, h1, h2, h3, r, rfl⟩ | ⟨r, rfl, rfl, h1, h2, h3⟩ | ⟨rfl, rfl, rfl⟩
    · exact .inl ⟨rfl, h1, h2, h3, _, rfl, rfl⟩
    · exact .inr (.inl ⟨rfl, h1, h2, h3, _, rfl, rfl⟩)
    · exact .inr (.inr ⟨rfl, rfl, rfl, rfl, rfl, fun _ h => by cases h; rfl⟩)
  case closeRollback hne hl =>
    rcases LockedStep.phase hl with ⟨rfl, h1, h2, h3, r, rfl⟩ | ⟨r, -, rfl, -⟩ | ⟨rfl, rfl, rfl⟩
    · exact .inl ⟨rfl, h1, h2, h3, _, rfl, rfl⟩
    · exact absurd rfl (hne r)
    · exact .inr (.inr ⟨rfl, rfl, rfl, rfl, rfl, fun _ h => by cases h; rfl⟩)
  case closeReturn hl =>
    rcases LockedStep.phase hl with ⟨-, -, -, -, r, h⟩ | ⟨r, rfl, h, h1, h2, h3⟩ | ⟨-, h, -⟩ <;> cases h
    exact .inr (.inl ⟨rfl, h1, h2, h3, _, rfl, rfl⟩)
  all_goals
    (try rcases TX.getLatestRoot_ok ‹_› with ⟨-, rfl⟩ | ⟨-, -, rfl⟩) <;>
    exact .inr (.inr ⟨rfl, rfl, rfl, by simp [lockedLog], by simp [closedLog],
      fun _ h => by cases h <;> rfl⟩)

end Effects

section Fetch

variable {t j : Nat} {th : Thread} {tx tx' : TX} {n : Next}

theorem FetchStep.effects (hs : FetchStep E t j th tx tx' n) :
    (tx' = tx ∨ ∃ rev id, tx' = tx.logRead t rev id) ∧
    ∀ th', n = .moves th' → ∃ rev ids pc fan fan', th = .getMerkleNodes rev ids pc (some fan) ∧
      th' = .getMerkleNodes rev ids pc (some fan') := by
  cases hs <;> simp

theorem FetchStep.log_extends (hs : FetchStep E t j th tx tx' n) :
    ∃ es, tx'.log = tx.log ++ es ∧ ∀ e ∈ es, e.tid = t := by
  rcases hs.effects.1 with rfl | ⟨rev, id, rfl⟩
  · exact ⟨[], by simp, by simp⟩
  · exact ⟨_, rfl, by split <;> simp [Event.tid]⟩

end Fetch

section Preservation

variable {w w' : World} {a : Action}

theorem LockInv.tids_step (hi : LockInv E w) (hs : step E w a = some w') :
    ∀ e ∈ w'.tx.log, e.tid < w'.threads.length := by
  rcases step_cases hs with ⟨c, rfl⟩ | ⟨t, b, th, tx', n, hth, hts, rfl⟩ |
    ⟨t, j, th, tx', n, hth, hfs, rfl⟩
  · intro e he
    simpa using Nat.lt_succ_of_lt (hi.tids e he)
  all_goals
    have ht : t < w.threads.length := (List.getElem?_eq_some_iff.1 hth).1
    intro e he
    have hlen : (w.apply t (tx', n)).threads.length = w.threads.length := by cases n <;> simp
    rw [hlen]
    simp only [World.apply_tx] at he
  · obtain ⟨es, hes, htid⟩ := hts.log_extends
    rw [hes, List.mem_append] at he
    rcases he with he | he
    · exact hi.tids e he
    · exact htid e he ▸ ht
  · obtain ⟨es, hes, htid⟩ := hfs.log_extends
    rw [hes, List.mem_append] at he
    rcases he with he | he
    · exact hi.tids e he
    · exact htid e he ▸ ht

theorem LockInv.mx_step (hi : LockInv E w) (hs : step E w a = some w') :
    MutualExclusion w'.threads := by
  rcases step_cases hs with ⟨c, rfl⟩ | ⟨t, b, th, tx', n, hth, hts, rfl⟩ |
    ⟨t, j, th, tx', n, hth, hfs, rfl⟩
  · intro i j thi thj hi' hj' hw hr
    rcases getElem?_append_singleton hi' with hi' | ⟨rfl, rfl⟩
    · rcases getElem?_append_singleton hj' with hj' | ⟨rfl, rfl⟩
      · exact hi.mx i j thi thj hi' hj' hw hr
      · simp at hr
    · simp at hw
  · cases n with
    | panics p => exact hi.mx
    | moves th' =>
      intro i j thi thj hi' hj' hw hr
      simp only [World.apply_moves_threads] at hi' hj'
      rcases getElem?_set_of hi' with ⟨rfl, rfl⟩ | ⟨hit, hi₀⟩ <;>
        rcases getElem?_set_of hj' with ⟨rfl, rfl⟩ | ⟨hjt, hj₀⟩
      · rfl
      · rcases hts.holdsWrite hw with hw0 | hh
        · exact absurd (hi.mx i j th thj hth hj₀ hw0 hr) (Ne.symm hjt)
        · have := World.held_eq_false hh hj₀
          simp_all
      · rcases hr with hr | hr
        · rcases hts.holdsWrite hr with hw0 | hh
          · exact hi.mx i j thi th hi₀ hth hw (.inl hw0)
          · have := World.held_eq_false hh hi₀
            simp_all
        · rcases hts.holdsRead hr with hr0 | ⟨hwh, -⟩
          · exact hi.mx i j thi th hi₀ hth hw (.inr hr0)
          · have := World.writeHeld_eq_false hwh hi₀
            simp_all
      · exact hi.mx i j thi thj hi₀ hj₀ hw hr
  · cases n with
    | panics p => exact hi.mx
    | moves th' =>
      obtain ⟨rev, ids, pc, fan, fan', rfl, rfl⟩ := hfs.effects.2 th' rfl
      intro i j thi thj hi' hj' hw hr
      simp only [World.apply_moves_threads] at hi' hj'
      have hread : (Thread.getMerkleNodes rev ids pc (some fan')).holdsRead =
          (Thread.getMerkleNodes rev ids pc (some fan)).holdsRead := by cases pc <;> rfl
      rcases getElem?_set_of hi' with ⟨rfl, rfl⟩ | ⟨hit, hi₀⟩
      · simp [Thread.holdsWrite] at hw
      · rcases getElem?_set_of hj' with ⟨rfl, rfl⟩ | ⟨hjt, hj₀⟩
        · exact hi.mx i _ thi _ hi₀ hth hw (by simpa [Thread.holdsWrite, hread] using hr)
        · exact hi.mx i j thi thj hi₀ hj₀ hw hr

theorem Phase.stx_cases {tx : TX} {ths : List Thread} (hp : Phase E tx ths) :
    tx.stx = some E.scope ∨ tx.stx = none := by
  cases hp <;> simp_all

theorem Phase.reader_open {tx : TX} {ths : List Thread} (hp : Phase E tx ths) {i : Nat}
    {th : Thread} (hi : ths[i]? = some th) (hr : th.holdsRead = true) : tx.stx = some E.scope := by
  cases hp with
  | isOpen h => exact h
  | closing _ _ h => exact h
  | closed _ _ _ _ _ _ h => simp [h i th hi] at hr

theorem Phase.frame {tx tx' : TX} {ths ths' : List Thread} (hp : Phase E tx ths)
    (hstx : tx'.stx = tx.stx) (hl : lockedLog tx'.log = lockedLog tx.log)
    (hc : closedLog tx'.log = closedLog tx.log)
    (hnew : ∀ (i : Nat) (th : Thread), ths'[i]? = some th → th.unlocking = true → ths[i]? = some th)
    (hold : ∀ (i : Nat) (th : Thread), ths[i]? = some th → th.unlocking = true → ths'[i]? = some th)
    (hread : ∀ (i : Nat) (th : Thread), ths'[i]? = some th → th.holdsRead = true →
      (∃ th₀, ths[i]? = some th₀ ∧ th₀.holdsRead = true) ∨ tx.stx.isSome) :
    Phase E tx' ths' := by
  cases hp with
  | isOpen h1 h2 h3 h4 =>
    refine .isOpen (hstx ▸ h1) (hl ▸ h2) (hc ▸ h3) fun i th hi => ?_
    cases hu : th.unlocking
    · rfl
    · exact absurd (h4 i th (hnew i th hi hu)) (by simp [hu])
  | closing t th h1 h2 h3 h4 h5 =>
    exact .closing t th (hstx ▸ h1) (hl ▸ h2) (hc ▸ h3) (hold t th h4 h5) h5
  | closed t rest h1 h2 h3 h4 h5 =>
    refine .closed t rest (hstx ▸ h1) (hl ▸ h2) h3 (hc ▸ h4) fun i th hi => ?_
    cases hr : th.holdsRead
    · rfl
    · rcases hread i th hi hr with ⟨th₀, hi₀, hr₀⟩ | h
      · simp [h5 i th₀ hi₀] at hr₀
      · simp [h1] at h

theorem Phase.set {tx tx' : TX} {ths : List Thread} {t : Nat} {th th' : Thread}
    (hp : Phase E tx ths) (hstx : tx'.stx = tx.stx) (hl : lockedLog tx'.log = lockedLog tx.log)
    (hc : closedLog tx'.log = closedLog tx.log) (hth : ths[t]? = some th)
    (hu : th.unlocking = false) (hu' : th'.unlocking = false)
    (hr : th'.holdsRead = true → th.holdsRead = true ∨ tx.stx.isSome) :
    Phase E tx' (ths.set t th') := by
  refine hp.frame hstx hl hc (fun i thi hi' hu₀ => ?_) (fun i thi hi' hu₀ => ?_)
    (fun i thi hi' hr' => ?_)
  · rcases getElem?_set_of hi' with ⟨rfl, rfl⟩ | ⟨-, hi₀⟩
    · simp [hu'] at hu₀
    · exact hi₀
  · have hit : i ≠ t := by rintro rfl; rw [hth] at hi'; cases hi'; simp [hu] at hu₀
    simpa [List.getElem?_set, Ne.symm hit] using hi'
  · rcases getElem?_set_of hi' with ⟨rfl, rfl⟩ | ⟨-, hi₀⟩
    · exact (hr hr').imp (fun h => ⟨th, hth, h⟩) id
    · exact .inl ⟨thi, hi₀, hr'⟩

theorem World.writeHeld_of {w : World} {t : Nat} {th : Thread} (hth : w.threads[t]? = some th)
    (hw : th.holdsWrite = true) : w.writeHeld = true :=
  List.any_eq_true.2 ⟨th, List.mem_iff_getElem?.2 ⟨t, hth⟩, hw⟩

theorem LockInv.not_reader {t i : Nat} {th thi : Thread} (hi : LockInv E w)
    (hth : w.threads[t]? = some th) (hw : th.holdsWrite = true) (hi' : w.threads[i]? = some thi) :
    thi.holdsRead = false := by
  cases hr : thi.holdsRead
  · rfl
  · obtain rfl := hi.mx t i th thi hth hi' hw (.inr hr)
    rw [hth] at hi'
    cases hi'
    simp [Thread.holdsRead_eq_false hw] at hr

theorem ThreadStep.not_reader_after {t : Nat} {b : Bool} {th th' : Thread} {tx' : TX}
    (hts : ThreadStep E w.held w.writeHeld w.cacheHeld t b th w.tx tx' (.moves th'))
    (hth : w.threads[t]? = some th) (hw : th.holdsWrite = true) : th'.holdsRead = false := by
  cases hr : th'.holdsRead
  · rfl
  · rcases hts.holdsRead hr with h | ⟨h, -⟩
    · simp [Thread.holdsRead_eq_false hw] at h
    · simp [World.writeHeld_of hth hw] at h

theorem LockInv.phase_step (hi : LockInv E w) (hs : step E w a = some w') :
    Phase E w'.tx w'.threads := by
  rcases step_cases hs with ⟨c, rfl⟩ | ⟨t, b, th, tx', n, hth, hts, rfl⟩ |
    ⟨t, j, th, tx', n, hth, hfs, rfl⟩
  · refine hi.phase.frame rfl rfl rfl (fun i th hi' hu => ?_) (fun i th hi' _ => ?_)
      (fun i th hi' hr => ?_)
    · rcases getElem?_append_singleton hi' with hi' | ⟨rfl, rfl⟩
      · exact hi'
      · simp at hu
    · exact (List.getElem?_append_left (List.getElem?_eq_some_iff.1 hi').1).trans hi'
    · rcases getElem?_append_singleton hi' with hi' | ⟨rfl, rfl⟩
      · exact .inl ⟨th, hi', hr⟩
      · simp at hr
  · have ht : t < w.threads.length := (List.getElem?_eq_some_iff.1 hth).1
    simp only [World.apply_tx]
    rcases hts.phase_effects with ⟨hb, hstx, hl, hc, th', rfl, hu'⟩ |
      ⟨hu, hstx, hl, hc, th', rfl, hu'⟩ | ⟨hb, hu, hstx, hl, hc, hu'⟩
    · -- `Commit` or `Rollback` `t` checks `t.stx` under the lock
      simp only [World.apply_moves_threads]
      rcases hi.phase with ⟨h1, h2, h3, -⟩ | ⟨t₀, th₀, -, -, -, h4, h5⟩ | ⟨t₀, rest, h1, h2, h3, h4, h5⟩
      · exact .closing t th' (hstx ▸ h1) (by rw [hl, h2, h1]; rfl) (hc ▸ h3)
          (by simp [List.getElem?_set, ht]) hu'
      · obtain rfl := hi.mx t₀ t th₀ th h4 hth (Thread.holdsWrite_of_unlocking h5)
          (.inl (Thread.holdsWrite_of_inBody hb))
        rw [hth] at h4
        cases h4
        simp [Thread.unlocking_eq_false hb] at h5
      · refine .closed t₀ (rest ++ [(t, false)]) (hstx ▸ h1) (by rw [hl, h2, h1]; rfl)
          (by simpa using h3) (hc ▸ h4) fun i thi hi' => ?_
        rcases getElem?_set_of hi' with ⟨rfl, rfl⟩ | ⟨-, hi₀⟩
        · exact Thread.holdsRead_eq_false (Thread.holdsWrite_of_unlocking hu')
        · exact h5 i thi hi₀
    · -- the deferred unlock of `Commit` or `Rollback` `t`
      simp only [World.apply_moves_threads]
      have hw := Thread.holdsWrite_of_unlocking hu
      have hnr : ∀ (i : Nat) (thi : Thread), (w.threads.set t th')[i]? = some thi →
          thi.holdsRead = false := fun i thi hi' => by
        rcases getElem?_set_of hi' with ⟨rfl, rfl⟩ | ⟨-, hi₀⟩
        · exact hts.not_reader_after hth hw
        · exact hi.not_reader hth hw hi₀
      rcases hi.phase with ⟨-, -, -, h4⟩ | ⟨t₀, th₀, h1, h2, h3, h4, h5⟩ | ⟨t₀, rest, h1, h2, h3, h4, -⟩
      · simp [h4 t th hth] at hu
      · obtain rfl := hi.mx t₀ t th₀ th h4 hth (Thread.holdsWrite_of_unlocking h5) (.inl hw)
        exact .closed t₀ [] hstx (hl ▸ h2) (by simp) (by rw [hc, h3, h1]; rfl) hnr
      · exact .closed t₀ rest hstx (hl ▸ h2) h3 (by rw [hc, h4, h1]; rfl) hnr
    · -- every other step
      cases n with
      | panics p =>
        exact hi.phase.frame hstx hl hc (fun _ _ h _ => h) (fun _ _ h _ => h)
          (fun i th h hr => .inl ⟨th, h, hr⟩)
      | moves th' =>
        exact hi.phase.set hstx hl hc hth hu (hu' th' rfl) fun hr =>
          (hts.holdsRead hr).imp id And.right
  · obtain ⟨htx, hmv⟩ := hfs.effects
    have htx' : tx'.stx = w.tx.stx ∧ lockedLog tx'.log = lockedLog w.tx.log ∧
        closedLog tx'.log = closedLog w.tx.log := by
      rcases htx with rfl | ⟨rev, id, rfl⟩ <;> simp
    simp only [World.apply_tx]
    cases n with
    | panics p =>
      exact hi.phase.frame htx'.1 htx'.2.1 htx'.2.2 (fun _ _ h _ => h) (fun _ _ h _ => h)
        (fun i th h hr => .inl ⟨th, h, hr⟩)
    | moves th' =>
      obtain ⟨rev, ids, pc, fan, fan', rfl, rfl⟩ := hmv th' rfl
      exact hi.phase.set htx'.1 htx'.2.1 htx'.2.2 hth rfl rfl fun hr =>
        .inl (by cases pc <;> simp_all [Thread.holdsRead])

theorem LockInv.step (hi : LockInv E w) (hs : step E w a = some w') : LockInv E w' :=
  ⟨hi.tids_step hs, hi.mx_step hs, hi.phase_step hs⟩

theorem LockInv.init : LockInv E (World.init E) :=
  ⟨by simp [World.init, TX.init], fun _ _ _ _ h => by simp [World.init] at h,
    .isOpen rfl rfl rfl fun _ _ h => by simp [World.init] at h⟩

end Preservation

theorem Reachable.lockInv {w : World} (hw : Reachable E w) : LockInv E w := by
  induction hw with
  | init => exact LockInv.init
  | step a _ hs ih => exact ih.step hs

/-- `t.mu` guards `t.stx` in every run: a call holding it for writing is the only call holding
it, and while a call holds it for reading the transaction is open, so no `Commit`, `Rollback`
or `Close` closes it under a `GetMerkleNodes` or `SetMerkleNodes` past its check. -/
theorem mu_guards_stx {w : World} (hw : Reachable E w) :
    MutualExclusion w.threads ∧
      ∀ (i : Nat) (th : Thread), w.threads[i]? = some th → th.holdsRead = true →
        w.tx.stx = some E.scope :=
  have hi := hw.lockInv
  ⟨hi.mx, fun _ _ h hr => hi.phase.reader_open h hr⟩

theorem mu_guards_stx_example :
    ∃ w, Reachable (exampleEnv .readOnly) w ∧ w.threads[0]?.any Thread.holdsRead = true ∧
      w.threads[1]? = some (.commit .lock) ∧ w.tx.stx = some (exampleEnv .readOnly).scope := by
  have hw := Reachable.run .init (Option.some_get (show (run (exampleEnv .readOnly)
    (World.init (exampleEnv .readOnly)) [.call (.getMerkleNodes 4 [⟨.mk [1], 8⟩]), .step 0 false,
      .call .commit]).isSome by decide)).symm
  refine ⟨_, hw, by decide, by decide, (mu_guards_stx hw).2 0 _
    (Option.some_get (by decide)).symm (by decide)⟩

end TrillianSpanner
