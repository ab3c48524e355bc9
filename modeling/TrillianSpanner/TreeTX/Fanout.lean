import TrillianSpanner.TreeTX.Locking
import Mathlib.Data.List.ReduceOption

/-! The miss handler of `GetMerkleNodes`: a fetch goroutine per id, each sending once into a
channel of capacity `len(ids)`, and a loop of `len(ids)` receives that returns on the first
error it takes. Over every interleaving no send blocks, a nil error comes with exactly the
non-nil subtrees the fetches' `getSubtree` calls returned, and an error is one of theirs and
comes with a nil list. The argument counts what was sent and received on each channel. -/

namespace TrillianSpanner

section Lists

variable {α β : Type} {f : α → Option β}

theorem filterMap_set_perm : ∀ {l : List α} {j : Nat} {a : α} (b : α), l[j]? = some a →
    f a = none → ((l.set j b).filterMap f).Perm (l.filterMap f ++ (f b).toList)
  | x :: l, 0, a, b, h, ha => by
    simp only [List.getElem?_cons_zero, Option.some.injEq] at h
    subst h
    cases hb : f b with
    | none => simp [hb, ha]
    | some y => simpa [hb, ha] using (List.perm_append_singleton y _).symm
  | x :: l, j + 1, a, b, h, ha => by
    simp only [List.getElem?_cons_succ] at h
    have ih : ((l.set j b).filterMap f).Perm (l.filterMap f ++ (f b).toList) :=
      filterMap_set_perm b h ha
    cases hx : f x with
    | none => simpa [hx] using ih
    | some y => simpa [hx] using ih.cons y

theorem length_filterMap_lt : ∀ {l : List α} {j : Nat} {a : α}, l[j]? = some a → f a = none →
    (l.filterMap f).length < l.length
  | x :: l, 0, a, h, ha => by
    simp only [List.getElem?_cons_zero, Option.some.injEq] at h
    subst h
    simpa [ha] using Nat.lt_succ_of_le (List.length_filterMap_le f l)
  | x :: l, j + 1, a, h, ha => by
    simp only [List.getElem?_cons_succ] at h
    have := length_filterMap_lt h ha
    cases hx : f x <;> simp [hx] <;> omega

end Lists

def FetchPc.got : FetchPc → Option (Option SubtreeProto × Option Error)
  | .start => none
  | .send st err | .done st err => some (st, err)

def FetchPc.sentOk : FetchPc → Option (Option SubtreeProto)
  | .done st none => some st
  | _ => none

def FetchPc.sentErr : FetchPc → Option Error
  | .done _ (some e) => some e
  | _ => none

def okSubtree : Except GoPanic (Option SubtreeProto × Option Error) → Option SubtreeProto
  | .ok (some st, none) => some st
  | _ => none

theorem reduceOption_sentOk (G : NodeID → Except GoPanic (Option SubtreeProto × Option Error)) :
    ∀ {fs : List FetchPc} {ids : List NodeID}, fs.length = ids.length →
    (∀ (j : Nat) x id, fs[j]? = some x → ids[j]? = some id →
      ∃ st, x = .done st none ∧ G id = .ok (st, none)) →
    (fs.filterMap FetchPc.sentOk).reduceOption = ids.filterMap fun id => okSubtree (G id)
  | [], [], _, _ => rfl
  | x :: fs, id :: ids, hl, h => by
    obtain ⟨st, rfl, hg⟩ := h 0 x id (by simp) (by simp)
    have ih := reduceOption_sentOk G (by simpa using hl) fun j x id hx hid =>
      h (j + 1) x id (by simpa using hx) (by simpa using hid)
    cases st <;> simp [FetchPc.sentOk, hg, okSubtree, List.reduceOption_cons_of_some,
      List.reduceOption_cons_of_none, ih]

structure FanInv (E : Env) (rev : Int) (f : Fanout) : Prop where
  length : f.fetches.length = f.ids.length
  got : ∀ (j : Nat) (x : FetchPc) (id : NodeID) r, f.fetches[j]? = some x → f.ids[j]? = some id →
    x.got = some r → getSubtree E.unmarshal (some E.read) rev id = .ok r
  left_le : f.left ≤ f.ids.length
  count : f.c.length + f.ids.length = (f.fetches.filterMap FetchPc.sentOk).length + f.left
  perm : (f.ret ++ f.c.reduceOption).Perm (f.fetches.filterMap FetchPc.sentOk).reduceOption
  errc_le : f.errc.length ≤ (f.fetches.filterMap FetchPc.sentErr).length
  errc_sent : ∀ e ∈ f.errc, e ∈ f.fetches.filterMap FetchPc.sentErr
  result : f.result = none ∨ (f.result = some (some f.ret, none) ∧ f.left = 0) ∨
    ∃ e, f.result = some (none, some e) ∧ e ∈ f.fetches.filterMap FetchPc.sentErr

variable {E : Env} {rev : Int} {f : Fanout}

namespace FanInv

theorem spawn (ids : List NodeID) : FanInv E rev (Fanout.spawn ids) where
  length := by simp [Fanout.spawn]
  got j x id r hx _ hr := by
    simp only [Fanout.spawn, List.getElem?_map, Option.map_eq_some'] at hx
    obtain ⟨_, -, rfl⟩ := hx
    cases hr
  left_le := le_rfl
  count := by simp [Fanout.spawn, List.filterMap_map, FetchPc.sentOk]
  perm := by simp [Fanout.spawn, List.filterMap_map, FetchPc.sentOk]
  errc_le := by simp [Fanout.spawn]
  errc_sent := by simp [Fanout.spawn]
  result := .inl rfl

theorem sent_set {l : List FetchPc} {j : Nat} {x : FetchPc} (y : FetchPc) (hj : l[j]? = some x)
    (hok : x.sentOk = none) (herr : x.sentErr = none) :
    ((l.set j y).filterMap FetchPc.sentOk).Perm (l.filterMap FetchPc.sentOk ++ y.sentOk.toList) ∧
    ((l.set j y).filterMap FetchPc.sentErr).Perm (l.filterMap FetchPc.sentErr ++ y.sentErr.toList) :=
  ⟨filterMap_set_perm y hj hok, filterMap_set_perm y hj herr⟩

theorem reduceOption_perm {l l' : List (Option SubtreeProto)} (h : l.Perm l') :
    l.reduceOption.Perm l'.reduceOption :=
  h.filterMap id

theorem fetched (hf : FanInv E rev f) {j : Nat} {id : NodeID} {st : Option SubtreeProto}
    {err : Option Error} (hj : f.fetches[j]? = some .start) (hid : f.ids[j]? = some id)
    (hget : getSubtree E.unmarshal (some E.read) rev id = .ok (st, err)) :
    FanInv E rev { f with fetches := f.fetches.set j (.send st err) } := by
  obtain ⟨hok, herr⟩ := sent_set (.send st err) hj rfl rfl
  simp only [FetchPc.sentOk, FetchPc.sentErr, Option.toList_none, List.append_nil] at hok herr
  refine ⟨by simp [hf.length], fun i x id' r hx hid' hr => ?_, hf.left_le,
    by rw [hok.length_eq]; exact hf.count, hf.perm.trans (reduceOption_perm hok.symm),
    hf.errc_le.trans_eq herr.length_eq.symm, fun e he => herr.mem_iff.2 (hf.errc_sent e he), ?_⟩
  · rcases getElem?_set_of hx with ⟨rfl, rfl⟩ | ⟨-, hx⟩
    · rw [hid] at hid'
      cases hid'
      cases hr
      exact hget
    · exact hf.got i x id' r hx hid' hr
  · rcases hf.result with h | h | ⟨e, h, he⟩
    · exact .inl h
    · exact .inr (.inl h)
    · exact .inr (.inr ⟨e, h, herr.mem_iff.2 he⟩)

theorem sentError (hf : FanInv E rev f) {j : Nat} {st : Option SubtreeProto} {e : Error}
    (hj : f.fetches[j]? = some (.send st (some e))) :
    FanInv E rev { f with errc := f.errc ++ [e], fetches := f.fetches.set j (.done st (some e)) } := by
  obtain ⟨hok, herr⟩ := sent_set (.done st (some e)) hj rfl rfl
  simp only [FetchPc.sentOk, FetchPc.sentErr, Option.toList_none, Option.toList_some,
    List.append_nil] at hok herr
  refine ⟨by simp [hf.length], fun i x id r hx hid hr => ?_, hf.left_le,
    by rw [hok.length_eq]; exact hf.count, hf.perm.trans (reduceOption_perm hok.symm),
    by simp [herr.length_eq, hf.errc_le], fun e' he' => herr.mem_iff.2 ?_, ?_⟩
  · rcases getElem?_set_of hx with ⟨rfl, rfl⟩ | ⟨-, hx⟩
    · exact hf.got i _ id r hj hid hr
    · exact hf.got i x id r hx hid hr
  · simp only [List.mem_append, List.mem_singleton] at he' ⊢
    exact he'.imp_left (hf.errc_sent e')
  · rcases hf.result with h | h | ⟨e', h, he'⟩
    · exact .inl h
    · exact .inr (.inl h)
    · exact .inr (.inr ⟨e', h, herr.mem_iff.2 (List.mem_append_left _ he')⟩)

theorem sent (hf : FanInv E rev f) {j : Nat} {st : Option SubtreeProto}
    (hj : f.fetches[j]? = some (.send st none)) :
    FanInv E rev { f with c := f.c ++ [st], fetches := f.fetches.set j (.done st none) } := by
  obtain ⟨hok, herr⟩ := sent_set (.done st none) hj rfl rfl
  simp only [FetchPc.sentOk, FetchPc.sentErr, Option.toList_none, Option.toList_some,
    List.append_nil] at hok herr
  refine ⟨by simp [hf.length], fun i x id r hx hid hr => ?_, hf.left_le,
    by simp [hok.length_eq]; have := hf.count; omega, ?_,
    hf.errc_le.trans_eq herr.length_eq.symm, fun e he => herr.mem_iff.2 (hf.errc_sent e he), ?_⟩
  · rcases getElem?_set_of hx with ⟨rfl, rfl⟩ | ⟨-, hx⟩
    · exact hf.got i _ id r hj hid hr
    · exact hf.got i x id r hx hid hr
  · show (f.ret ++ (f.c ++ [st]).reduceOption).Perm _
    rw [List.reduceOption_append, ← List.append_assoc]
    refine (hf.perm.append_right _).trans ?_
    rw [← List.reduceOption_append]
    exact reduceOption_perm hok.symm
  · rcases hf.result with h | h | ⟨e, h, he⟩
    · exact .inl h
    · exact .inr (.inl h)
    · exact .inr (.inr ⟨e, h, herr.mem_iff.2 he⟩)

theorem recvSubtree (hf : FanInv E rev f) (hres : f.result = none) {st : Option SubtreeProto}
    {c : List (Option SubtreeProto)} (hl : f.left ≠ 0) (hc : f.c = st :: c) :
    FanInv E rev { f with c := c, ret := f.ret ++ st.toList, left := f.left - 1 } := by
  refine ⟨hf.length, hf.got, by have := hf.left_le; simp only; omega,
    by have := hf.count; simp only [hc, List.length_cons] at this ⊢; omega, ?_, hf.errc_le,
    hf.errc_sent, .inl hres⟩
  have := hf.perm
  rw [hc] at this
  cases st <;> simpa using this

theorem recvErr (hf : FanInv E rev f) {e : Error} {errc : List Error} (he : f.errc = e :: errc) :
    FanInv E rev { f with errc := errc, result := some (none, some e) } :=
  ⟨hf.length, hf.got, hf.left_le, hf.count, hf.perm,
    le_trans (by simp) (he ▸ hf.errc_le), fun e' he' => hf.errc_sent e' (by simp [he, he']),
    .inr (.inr ⟨e, rfl, hf.errc_sent e (by simp [he])⟩)⟩

theorem returned (hf : FanInv E rev f) (hl : f.left = 0) :
    FanInv E rev { f with result := some (some f.ret, none) } :=
  ⟨hf.length, hf.got, hf.left_le, hf.count, hf.perm, hf.errc_le, hf.errc_sent, .inr (.inl ⟨rfl, hl⟩)⟩

theorem send_room (hf : FanInv E rev f) {j : Nat} {st : Option SubtreeProto} {err : Option Error}
    (hj : f.fetches[j]? = some (.send st err)) :
    (err = none → f.c.length < f.ids.length) ∧ (err.isSome → f.errc.length < f.ids.length) := by
  have hok : (f.fetches.filterMap FetchPc.sentOk).length < f.fetches.length :=
    length_filterMap_lt hj rfl
  have herr : (f.fetches.filterMap FetchPc.sentErr).length < f.fetches.length :=
    length_filterMap_lt hj rfl
  have := hf.count
  have := hf.errc_le
  have := hf.left_le
  rw [hf.length] at hok herr
  exact ⟨fun _ => by omega, fun _ => by omega⟩

theorem all_done (hf : FanInv E rev f) {ret : List SubtreeProto}
    (h : f.result = some (some ret, none)) :
    ∀ (j : Nat) x, f.fetches[j]? = some x → ∃ st, x = .done st none := by
  have hleft : f.left = 0 := by
    rcases hf.result with h' | ⟨h', hl⟩ | ⟨e, h', -⟩ <;> rw [h] at h' <;> cases h'
    exact hl
  intro j x hx
  cases hs : x.sentOk with
  | none =>
    have := length_filterMap_lt hx hs
    have := hf.count
    have := hf.length
    omega
  | some st => exact ⟨st, by cases x <;> simp_all [FetchPc.sentOk]; split at hs <;> simp_all⟩

theorem ok_result (hf : FanInv E rev f) {ret : List SubtreeProto}
    (h : f.result = some (some ret, none)) :
    (∀ (j : Nat) id, f.ids[j]? = some id → ∃ st, f.fetches[j]? = some (.done st none) ∧
      getSubtree E.unmarshal (some E.read) rev id = .ok (st, none)) ∧
    ret.Perm (f.ids.filterMap fun id => okSubtree (getSubtree E.unmarshal (some E.read) rev id)) := by
  obtain ⟨hret, hleft⟩ : ret = f.ret ∧ f.left = 0 := by
    rcases hf.result with h' | ⟨h', hl⟩ | ⟨e, h', -⟩ <;> rw [h] at h' <;> cases h'
    exact ⟨rfl, hl⟩
  have hall := hf.all_done h
  have hdone : ∀ (j : Nat) id, f.ids[j]? = some id → ∃ st, f.fetches[j]? = some (.done st none) ∧
      getSubtree E.unmarshal (some E.read) rev id = .ok (st, none) := by
    intro j id hid
    have hj : j < f.fetches.length := hf.length ▸ (List.getElem?_eq_some_iff.1 hid).1
    obtain ⟨x, hx⟩ : ∃ x, f.fetches[j]? = some x := ⟨_, List.getElem?_eq_getElem hj⟩
    obtain ⟨st, rfl⟩ := hall j x hx
    exact ⟨st, hx, hf.got j _ id _ hx hid rfl⟩
  refine ⟨hdone, ?_⟩
  have hc : f.c = [] := List.eq_nil_of_length_eq_zero (by
    have := hf.count
    have := List.length_filterMap_le FetchPc.sentOk f.fetches
    have := hf.length
    omega)
  have := hf.perm
  rw [hc, ← hret, reduceOption_sentOk _ hf.length fun j x id hx hid => ?_] at this
  · simpa using this
  · obtain ⟨st, hx', hg⟩ := hdone j id hid
    rw [hx] at hx'
    cases hx'
    exact ⟨st, rfl, hg⟩

theorem err_result (hf : FanInv E rev f) {r : Option (List SubtreeProto)} {e : Error}
    (h : f.result = some (r, some e)) :
    r = none ∧ ∃ (j : Nat) (id : NodeID) (st : Option SubtreeProto), f.ids[j]? = some id ∧ f.fetches[j]? = some (.done st (some e)) ∧
      getSubtree E.unmarshal (some E.read) rev id = .ok (st, some e) := by
  rcases hf.result with h' | ⟨h', -⟩ | ⟨e', h', he'⟩ <;> rw [h] at h' <;> cases h'
  refine ⟨rfl, ?_⟩
  obtain ⟨x, hx, hxe⟩ := List.mem_filterMap.1 he'
  obtain ⟨j, hj⟩ := List.mem_iff_getElem?.1 hx
  obtain ⟨st, rfl⟩ : ∃ st, x = .done st (some e) := by
    cases x <;> simp_all [FetchPc.sentErr]
    split at hxe <;> simp_all
  have hj' : j < f.ids.length := hf.length ▸ (List.getElem?_eq_some_iff.1 hj).1
  obtain ⟨id, hid⟩ : ∃ id, f.ids[j]? = some id := ⟨_, List.getElem?_eq_getElem hj'⟩
  exact ⟨j, id, st, hid, hj, hf.got j _ id _ hj hid rfl⟩

end FanInv

def GetInv (E : Env) : Thread → Prop
  | .getMerkleNodes _ _ .rlock fan => fan = none
  | .getMerkleNodes rev _ (.handler _) fan => ∃ f, fan = some f ∧ FanInv E rev f ∧ f.result = none
  | .getMerkleNodes rev _ (.done nodes err) fan =>
    ∀ f, fan = some f → FanInv E rev f ∧ ∃ r, f.result = some (r, err) ∧ r.isSome = nodes.isSome
  | _ => True

theorem getSubtree_of_tx {tx : TX} (hstx : tx.stx = some E.scope ∨ tx.stx = none) {id : NodeID}
    {r : Option SubtreeProto × Option Error} (h : tx.getSubtree E rev id = .ok r) :
    getSubtree E.unmarshal (some E.read) rev id = .ok r := by
  rcases hstx with hstx | hstx <;> simp only [TX.getSubtree, hstx, Option.map_some', Option.map_none'] at h
  · exact h
  · unfold getSubtree at h ⊢
    split at h <;> simp_all

variable {h w k b : Bool} {t j : Nat} {th th' : Thread} {tx tx' : TX}

theorem ThreadStep.getInv (hs : ThreadStep E h w k t b th tx tx' (.moves th')) (hg : GetInv E th) :
    GetInv E th' := by
  cases hs with
  | getClosed => intro f hf; simp_all [GetInv]
  | getCached => intro f hf; simp_all [GetInv]
  | getMissing => exact ⟨_, rfl, .spawn _, rfl⟩
  | handlerReturn hl =>
    obtain ⟨f, hf, hinv, -⟩ := hg
    cases hf
    intro f' hf'
    cases hf'
    exact ⟨hinv.returned hl, _, rfl, rfl⟩
  | recvErr _ he =>
    obtain ⟨f, hf, hinv, -⟩ := hg
    cases hf
    intro f' hf'
    cases hf'
    exact ⟨hinv.recvErr he, _, rfl, rfl⟩
  | recvSubtree hl hc =>
    obtain ⟨f, hf, hinv, hres⟩ := hg
    cases hf
    exact ⟨_, rfl, hinv.recvSubtree hres hl hc, hres⟩
  | _ => trivial

theorem FetchStep.getInv (hs : FetchStep E t j th tx tx' (.moves th'))
    (hstx : tx.stx = some E.scope ∨ tx.stx = none) (hg : GetInv E th) : GetInv E th' := by
  have key : ∀ {rev : Int} {f f' : Fanout}, (FanInv E rev f → FanInv E rev f') → f'.result = f.result →
      ∀ {ids : List NodeID} {pc : GetPc}, GetInv E (.getMerkleNodes rev ids pc (some f)) →
      GetInv E (.getMerkleNodes rev ids pc (some f')) := by
    intro rev f f' hinv hres ids pc hg
    cases pc with
    | rlock => cases hg
    | handler want =>
      obtain ⟨_, hf, hi, hr⟩ := hg
      cases hf
      exact ⟨_, rfl, hinv hi, hres.trans hr⟩
    | done nodes err =>
      intro f₁ hf₁
      cases hf₁
      obtain ⟨hi, r, hr, hr'⟩ := hg f rfl
      exact ⟨hinv hi, r, hres.trans hr, hr'⟩
  cases hs with
  | get hj hid hget => exact key (fun hi => hi.fetched hj hid (getSubtree_of_tx hstx hget)) rfl hg
  | sendErr hj _ => exact key (fun hi => hi.sentError hj) rfl hg
  | send hj _ => exact key (fun hi => hi.sent hj) rfl hg

theorem Reachable.getInv {w : World} (hw : Reachable E w) :
    ∀ (t : Nat) (th : Thread), w.threads[t]? = some th → GetInv E th := by
  induction hw with
  | init => intro t th h; simp [World.init] at h
  | step a hw hs ih =>
    rcases step_cases hs with ⟨c, rfl⟩ | ⟨t, b, th, tx', n, hth, hts, rfl⟩ |
      ⟨t, j, th, tx', n, hth, hfs, rfl⟩
    · intro i thi hi
      rcases getElem?_append_singleton hi with hi | ⟨rfl, rfl⟩
      · exact ih i thi hi
      · cases c <;> trivial
    all_goals
      cases n with
      | panics p => exact ih
      | moves th' =>
        intro i thi hi
        rcases getElem?_set_of hi with ⟨rfl, rfl⟩ | ⟨-, hi⟩
        · first
            | exact hts.getInv (ih _ _ hth)
            | exact hfs.getInv hw.lockInv.phase.stx_cases (ih _ _ hth)
        · exact ih i thi hi

/-- The miss handler of a `GetMerkleNodes` at `rev`, in every reachable world, whatever the
interleaving of its fetch goroutines: a fetch about to send finds room in its channel; a nil
error comes after every fetch's `getSubtree` succeeded, with exactly the non-nil subtrees they
returned; an error is one a fetch's `getSubtree` returned, and comes with a nil list. -/
theorem getMerkleNodes_fanout_joins {w : World} (hw : Reachable E w) {t : Nat} {rev : Int}
    {ids : List NodeID} {pc : GetPc} {f : Fanout}
    (ht : w.threads[t]? = some (.getMerkleNodes rev ids pc (some f))) :
    (∀ (j : Nat) st err, f.fetches[j]? = some (.send st err) →
      (err = none → f.c.length < f.ids.length) ∧ (err.isSome → f.errc.length < f.ids.length)) ∧
    (∀ ret, f.result = some (some ret, none) →
      (∀ id ∈ f.ids, ∃ st, getSubtree E.unmarshal (some E.read) rev id = .ok (st, none)) ∧
      ret.Perm (f.ids.filterMap fun id => okSubtree (getSubtree E.unmarshal (some E.read) rev id))) ∧
    (∀ r e, f.result = some (r, some e) →
      r = none ∧ ∃ id ∈ f.ids, ∃ st, getSubtree E.unmarshal (some E.read) rev id = .ok (st, some e)) := by
  have hf : FanInv E rev f := by
    have hg := hw.getInv t _ ht
    cases pc with
    | rlock => cases hg
    | handler want => obtain ⟨_, hf, hi, -⟩ := hg; cases hf; exact hi
    | done nodes err => exact (hg f rfl).1
  refine ⟨fun j st err hj => hf.send_room hj, fun ret hret => ?_, fun r e hres => ?_⟩
  · obtain ⟨hall, hperm⟩ := hf.ok_result hret
    refine ⟨fun id hid => ?_, hperm⟩
    obtain ⟨j, hj⟩ := List.mem_iff_getElem?.1 hid
    obtain ⟨st, -, hst⟩ := hall j id hj
    exact ⟨st, hst⟩
  · obtain ⟨hr, j, id, st, hid, -, hst⟩ := hf.err_result hres
    exact ⟨hr, id, List.mem_iff_getElem?.2 ⟨j, hid⟩, st, hst⟩

theorem getMerkleNodes_fanout_joins_example :
    ∃ w f, Reachable (exampleEnv .readOnly) w ∧
      w.threads[0]? = some (.getMerkleNodes 4 [⟨.mk [1], 8⟩]
        (.done (some [⟨⟨.mk [1], 8⟩, .mk [6]⟩]) none) (some f)) ∧
      ∀ ret, f.result = some (some ret, none) → ret.Perm [⟨.mk [1], 8, .mk [6], [], []⟩] := by
  have hw := Reachable.run .init (Option.some_get (show (run (exampleEnv .readOnly)
    (World.init (exampleEnv .readOnly)) [.call (.getMerkleNodes 4 [⟨.mk [1], 8⟩]), .step 0 false,
      .fetch 0 0, .fetch 0 0, .step 0 false, .step 0 false]).isSome by decide)).symm
  refine ⟨_, ⟨[⟨.mk [1], 8⟩], [.done (some ⟨.mk [1], 8, .mk [6], [], []⟩) none], [], [],
    [⟨.mk [1], 8, .mk [6], [], []⟩], 0, some (some [⟨.mk [1], 8, .mk [6], [], []⟩], none)⟩, hw,
    ?hth, fun ret hret => ((getMerkleNodes_fanout_joins hw ?hth).2.1 ret hret).2.trans ?hperm⟩
  case hth => decide
  case hperm => decide

def ReadsReturned (log : List Event) (t : Nat) : Prop :=
  ∀ pre post rev s, log = pre ++ .read t rev s :: post → .returned t ∈ post

theorem append_eq_cons_split {log es pre post : List Event} {x : Event}
    (h : log ++ es = pre ++ x :: post) (hx : x ∉ es) :
    ∃ post', log = pre ++ x :: post' ∧ post = post' ++ es := by
  rcases List.append_eq_append_iff.1 h with ⟨a', -, h'⟩ | ⟨c', rfl, h'⟩
  · exact absurd (h' ▸ List.mem_append_right _ (List.mem_cons_self _ _)) hx
  · cases c' with
    | nil => exact absurd (by simp only [List.nil_append] at h'; exact h' ▸ List.mem_cons_self _ _) hx
    | cons y c'' =>
      simp only [List.cons_append, List.cons.injEq] at h'
      obtain ⟨rfl, rfl⟩ := h'
      exact ⟨c'', rfl, rfl⟩

theorem ReadsReturned.append {log es : List Event} {t : Nat} (h : ReadsReturned log t)
    (hes : ∀ e ∈ es, e.tid ≠ t) : ReadsReturned (log ++ es) t := by
  intro pre post rev s hlog
  obtain ⟨post', rfl, rfl⟩ := append_eq_cons_split hlog fun hx => hes _ hx rfl
  exact List.mem_append_left _ (h pre post' rev s rfl)

theorem readsReturned_of_returned {log es : List Event} {t : Nat}
    (hes : ∀ e ∈ es, ∀ rev s, e ≠ .read t rev s) (hr : .returned t ∈ es) :
    ReadsReturned (log ++ es) t := by
  intro pre post rev s hlog
  obtain ⟨post', rfl, rfl⟩ := append_eq_cons_split hlog fun hx => hes _ hx rev s rfl
  exact List.mem_append_right _ hr

theorem FetchStep.pending {t j : Nat} {th : Thread} {tx tx' : TX} {n : Next}
    (hs : FetchStep E t j th tx tx' n) : ∃ rev ids pc f x, th = .getMerkleNodes rev ids pc (some f) ∧
      f.fetches[j]? = some x ∧ ∀ st, x ≠ .done st none := by
  cases hs <;> exact ⟨_, _, _, _, _, rfl, ‹_›, by simp⟩

theorem Reachable.readsReturned {w : World} (hw : Reachable E w) :
    ∀ (t : Nat) rev ids nodes fan,
      w.threads[t]? = some (.getMerkleNodes rev ids (.done (some nodes) none) fan) →
      ReadsReturned w.tx.log t := by
  induction hw with
  | init => intro t _ _ _ _ h; simp [World.init] at h
  | @step w₀ w₁ a hw hs ih =>
    rcases step_cases hs with ⟨c, rfl⟩ | ⟨t', b, th, tx', n, hth, hts, rfl⟩ |
      ⟨t', j, th, tx', n, hth, hfs, rfl⟩
    · intro t rev ids nodes fan ht
      rcases getElem?_append_singleton ht with ht | ⟨rfl, h⟩
      · exact ih t rev ids nodes fan ht
      · cases c <;> cases h
    · intro t rev ids nodes fan ht
      obtain ⟨es, hes, htid⟩ := hts.log_extends
      simp only [World.apply_tx, hes]
      by_cases htt : t = t'
      · subst htt
        cases n with
        | panics p =>
          rw [World.apply_panics_threads, hth] at ht
          cases ht
          cases hts
        | moves th' =>
          rw [World.apply_moves_threads, List.getElem?_set_self
            (List.getElem?_eq_some_iff.1 hth).1] at ht
          cases ht
          cases hts <;> simp only [TX.emit_log, List.append_assoc, List.singleton_append] at hes <;>
            rw [List.append_cancel_left hes.symm] <;>
            exact readsReturned_of_returned (by simp) (by simp)
      · have ht₀ : w₀.threads[t]? = some (.getMerkleNodes rev ids (.done (some nodes) none) fan) := by
          cases n <;> simpa [List.getElem?_set, Ne.symm htt] using ht
        exact (ih t rev ids nodes fan ht₀).append fun e he h => htt (h ▸ htid e he)
    · intro t rev ids nodes fan ht
      obtain ⟨es, hes, htid⟩ := hfs.log_extends
      simp only [World.apply_tx, hes]
      by_cases htt : t = t'
      · subst htt
        exfalso
        obtain ⟨rev', ids', pc, f, x, rfl, hx, hpend⟩ := hfs.pending
        have hpc : pc = .done (some nodes) none := by
          cases n with
          | panics p =>
            rw [World.apply_panics_threads, hth] at ht
            cases ht
            rfl
          | moves th' =>
            obtain ⟨_, _, _, _, f', h₁, rfl⟩ := hfs.effects.2 th' rfl
            cases h₁
            rw [World.apply_moves_threads, List.getElem?_set_self
              (List.getElem?_eq_some_iff.1 hth).1] at ht
            cases ht
            rfl
        subst hpc
        obtain ⟨hf, r, hr, hsome⟩ := hw.getInv t _ hth f rfl
        obtain ⟨ret, rfl⟩ := Option.isSome_iff_exists.1 hsome
        obtain ⟨st, rfl⟩ := hf.all_done hr j x hx
        exact hpend st rfl
      · have ht₀ : w₀.threads[t]? = some (.getMerkleNodes rev ids (.done (some nodes) none) fan) := by
          cases n <;> simpa [List.getElem?_set, Ne.symm htt] using ht
        exact (ih t rev ids nodes fan ht₀).append fun e he h => htt (h ▸ htid e he)

/-- On its success path `GetMerkleNodes` joins its fetches: every read of `t.stx` by a fetch
goroutine of a call that returned nodes with a nil error happened before the call returned. -/
theorem getMerkleNodes_success_joins_reads {w : World} (hw : Reachable E w) {t : Nat} {rev : Int}
    {ids : List NodeID} {nodes : List Node} {fan : Option Fanout}
    (ht : w.threads[t]? = some (.getMerkleNodes rev ids (.done (some nodes) none) fan)) :
    ∀ pre post rev' s, w.tx.log = pre ++ .read t rev' s :: post → .returned t ∈ post :=
  hw.readsReturned t rev ids nodes fan ht

theorem getMerkleNodes_success_joins_reads_example :
    ∃ w fan, Reachable (exampleEnv .readOnly) w ∧
      w.threads[0]? = some (.getMerkleNodes 4 [⟨.mk [1], 8⟩]
        (.done (some [⟨⟨.mk [1], 8⟩, .mk [6]⟩]) none) fan) ∧
      w.tx.log = [.checked 0 true, .getNodes 0, .read 0 4 (some .readOnly), .returned 0] ∧
      ∀ pre post rev s, w.tx.log = pre ++ .read 0 rev s :: post → .returned 0 ∈ post := by
  have hw := Reachable.run .init (Option.some_get (show (run (exampleEnv .readOnly)
    (World.init (exampleEnv .readOnly)) [.call (.getMerkleNodes 4 [⟨.mk [1], 8⟩]), .step 0 false,
      .fetch 0 0, .fetch 0 0, .step 0 false, .step 0 false]).isSome by decide)).symm
  refine ⟨_, some ⟨[⟨.mk [1], 8⟩], [.done (some ⟨.mk [1], 8, .mk [6], [], []⟩) none], [], [],
    [⟨.mk [1], 8, .mk [6], [], []⟩], 0, some (some [⟨.mk [1], 8, .mk [6], [], []⟩], none)⟩, hw,
    ?hth, by decide, getMerkleNodes_success_joins_reads hw ?hth⟩
  case hth => decide

/-- A straggling fetch: `GetMerkleNodes` returns the error of its first fetch, a `Rollback` then
closes the transaction, and only after that does the other fetch read `t.stx`, find it nil and
panic. -/
theorem getMerkleNodes_straggler_reads_nil_scope :
    ∃ w, Reachable (exampleEnv .readOnly) w ∧ w.crashed = some .nilDereference ∧
      w.tx.log = [.checked 0 true, .getNodes 0, .read 0 4 (some .readOnly), .returned 0,
        .locked 1 true, .closed 1, .returned 1, .read 0 4 none] :=
  ⟨_, Reachable.run .init (Option.some_get (show (run (exampleEnv .readOnly)
    (World.init (exampleEnv .readOnly)) [.call (.getMerkleNodes 4 [⟨.mk [2], 8⟩, ⟨.mk [1], 8⟩]),
      .step 0 false, .fetch 0 0, .fetch 0 0, .step 0 false, .call .rollback, .step 1 false,
      .step 1 false, .step 1 false, .fetch 0 1]).isSome by decide)).symm, by decide, by decide⟩

/-- Subtree reads are not total on node ids: `subtreeKey` and `getSubtree` panic on the ids
out of range, and a fetch goroutine of `GetMerkleNodes` or the loader of `SetMerkleNodes` that
reads such an id panics when it runs, which ends the program. -/
theorem subtree_reads_panic_out_of_range :
    (∀ id : NodeID, (∃ p, subtreeKey id = .error p) ↔ id.keyOutOfRange) ∧
    (∀ (unmarshal : List UInt8 → Except Nat SubtreeProto)
      (stx : Option (List UInt8 → RowStream SubtreeRow)) (rev : Int) (id : NodeID),
      getSubtree unmarshal stx rev id = .error (.sliceBounds (id.PrefixLenBits.tdiv 8)) ↔
        id.keyOutOfRange) ∧
    (∀ (E : Env) (w : World) (t j : Nat) (rev : Int) (ids : List NodeID) (pc : GetPc)
      (f : Fanout) (id : NodeID), w.crashed = none →
      w.threads[t]? = some (.getMerkleNodes rev ids pc (some f)) → f.fetches[j]? = some .start →
      f.ids[j]? = some id → id.keyOutOfRange →
      (step E w (.fetch t j)).map World.crashed = some (some (.sliceBounds (id.PrefixLenBits.tdiv 8)))) ∧
    ∀ (E : Env) (w : World) (t : Nat) (b : Bool) (nodes : List Node) (wr : Int) (n : Node)
      (rest : List Node), w.crashed = none →
      w.threads[t]? = some (.setMerkleNodes nodes (.load wr n rest)) →
      (E.layout.subtreeID n.NodeID).keyOutOfRange →
      (step E w (.step t b)).map World.crashed =
        some (some (.sliceBounds ((E.layout.subtreeID n.NodeID).PrefixLenBits.tdiv 8))) := by
  refine ⟨subtreeKey_panics_iff, getSubtree_panics_iff, ?_, ?_⟩
  · intro E w t j rev ids pc f id hc hth hj hid hout
    have hp := (getSubtree_panics_iff E.unmarshal (w.tx.stx.map fun _ => E.read) rev id).2 hout
    simp [step, hc, hth, stepFetch, hj, hid, TX.getSubtree, hp, World.apply]
  · intro E w t b nodes wr n rest hc hth hout
    have hp := (getSubtree_panics_iff E.unmarshal (w.tx.stx.map fun _ => E.read)
      (wrapInt64 (wr - 1)) _).2 hout
    simp [step, hc, hth, stepThread, stepSet, TX.getSubtree, hp, World.apply]

def selfKeyedEnv : Env :=
  { exampleEnv .readOnly with layout := { (exampleEnv .readOnly).layout with subtreeID := fun id => id } }

/-- `GetMerkleNodes` of a node whose prefix length is `-8`: its fetch goroutine slices the path
to `-1` and panics. -/
theorem getMerkleNodes_fetch_panics_on_negative_prefix :
    ∃ w, Reachable selfKeyedEnv w ∧
      (step selfKeyedEnv w (.fetch 0 0)).map World.crashed = some (some (.sliceBounds (-1))) := by
  have hw := Reachable.run .init (Option.some_get (show (run selfKeyedEnv (World.init selfKeyedEnv)
    [.call (.getMerkleNodes 4 [⟨.mk [1], -8⟩]), .step 0 false]).isSome by decide)).symm
  exact ⟨_, hw, subtree_reads_panic_out_of_range.2.2.1 selfKeyedEnv _ 0 0 4 [⟨.mk [1], -8⟩]
    (.handler [([1], ⟨.mk [1], -8⟩)]) (Fanout.spawn [⟨.mk [1], -8⟩]) ⟨.mk [1], -8⟩ (by decide)
    (by decide) rfl rfl (by decide)⟩

end TrillianSpanner
