import IntkeyWill.Delayed

/-!
# Commits during a request

The validator applies submitted writes on its own, so its commits can fall between any
two calls a handler makes to the client, and not only between two requests as in
`runFrom`.  `Paced` is the ledger under delayed commit together with the validator's
pace: before each client call, the validator applies the next number of `pace` of the
writes submitted so far.  Every way its commits can fall among a handler's calls is one
pace.

Waiting still restores immediate commit.  Served with nothing pending, a request reads
at any pace what it reads under immediate commit.  Every key it reads is one it has not
written yet, except the indexes of the witness loop of `create_will`: a pass that reads
an index an earlier pass wrote reads either the committed index or the written one, and
in both cases the ledger settles to the same.  So a schedule that serves each request
once every write before it has been applied settles to the ledger with immediate
commit, wherever the commits fall (`Paced.run_settled`).

## Main definitions

* `Paced`, `Paced.tick`, `Paced.client` — the ledger with a pace, the commits before a
  client call, and the client over it.
* `PacedSim` — a step on the paced ledger that settles as a step under immediate commit
  on the settled ledger, from a paced ledger satisfying one condition to one satisfying
  another.
* `Untouched`, `LoopInv` — the conditions the handlers' reads need.
* `Paced.Event`, `Paced.run`, `Paced.served`, `Paced.Waits` — schedules with a pace for
  each request.

## Main results

* `Call.pacedSim` — served with nothing pending, a request settles at any pace as under
  immediate commit, with the same answer.
* `Paced.run_settled` — under waiting, a schedule settles to the immediate-commit ledger
  of the requests it serves, wherever the commits fall.
* `Paced.run_unpaced` — the ledger under delayed commit is the paced ledger on which the
  validator applies nothing while a request is served.

## References

`src/sdk/examples/intkey_python/sawtooth_intkey/client_cli/intkey_cli.py`, lines 390–395
(`--wait`), 521–576, 636–728 and 807–880; spec §5 and §9.
-/

namespace IntkeyWill

open JSON

/-! ### Commits -/

namespace Ledger

/-- `n` commits of the validator. -/
def commits : Ledger → Nat → Ledger
  | l, 0 => l
  | l, n + 1 => commits l.commit n

@[simp] theorem settled_commits : ∀ (l : Ledger) (n : Nat), (l.commits n).settled = l.settled
  | _, 0 => rfl
  | l, n + 1 => (settled_commits l.commit n).trans l.settled_commit

theorem mem_submitted_commit {l : Ledger} {p : String × JSON} (h : p ∈ l.commit.submitted) :
    p ∈ l.submitted := by
  obtain ⟨s, _ | ⟨w, ws⟩⟩ := l
  · exact h
  · exact List.mem_cons_of_mem w h

theorem mem_submitted_commits : ∀ {l : Ledger} {n : Nat} {p : String × JSON},
    p ∈ (l.commits n).submitted → p ∈ l.submitted
  | _, 0, _, h => h
  | _, _ + 1, _, h => mem_submitted_commit (mem_submitted_commits h)

/-- A key with no write pending is as committed. -/
theorem settled_of_untouched {k : String} :
    ∀ {l : Ledger}, (∀ p ∈ l.submitted, p.1 ≠ k) → l.settled k = l.committed k
  | ⟨s, []⟩, _ => rfl
  | ⟨s, (k', v) :: ws⟩, h => by
    have ih := settled_of_untouched (l := ⟨s.put k' v, ws⟩) fun p hp => h p (List.mem_cons_of_mem _ hp)
    have hk : k ≠ k' := fun e => h _ (List.mem_cons_self _ _) e.symm
    simpa [settled, hk] using ih

end Ledger

/-! ### The ledger with a pace -/

/-- Modelled from the spec: the ledger under delayed commit while requests are served,
with the validator's pace.  Before each client call the validator applies the next
number of `pace` of the submitted writes, and none once `pace` has run out. -/
structure Paced where
  /-- The committed state and the writes pending. -/
  ledger : Ledger
  /-- How many writes the validator applies before each of the next client calls. -/
  pace : List Nat

namespace Paced

/-- The validator's commits before the next client call. -/
def tick (x : Paced) : Paced := ⟨x.ledger.commits (x.pace.headD 0), x.pace.tail⟩

/-- A call of the client under delayed commit, once the validator has committed. -/
def call {α : Type} (m : Py Ledger α) : Py Paced α := fun x =>
  (⟨(m x.tick.ledger).1, x.tick.pace⟩, (m x.tick.ledger).2)

/-- The client over the ledger with a pace. -/
def client : Client Paced :=
  ⟨fun key => call (Ledger.client.getValue key), fun key v => call (Ledger.client.set key v)⟩

@[simp] theorem settled_tick (x : Paced) : x.tick.ledger.settled = x.ledger.settled :=
  Ledger.settled_commits _ _

theorem client_getValue_str (k : String) (x : Paced) :
    client.getValue (.str k) x = (x.tick, x.tick.ledger.committed.lookup k) := rfl

theorem client_set_str (k : String) (v : JSON) (x : Paced) :
    client.set (.str k) v x = (⟨x.tick.ledger.submit k v, x.tick.pace⟩, .ok ()) := rfl

end Paced

/-! ### Steps that settle alike at any pace -/

/-- Served on a paced ledger satisfying `P`, `m` leaves a ledger that settles to what
`m'` leaves of the settled ledger under immediate commit, and gives the same result;
when it returns, the paced ledger satisfies `Q`. -/
def PacedSim {α : Type} (P Q : Paced → Prop) (m : Py Paced α) (m' : Py Store α) : Prop :=
  ∀ x, P x → (m x).1.ledger.settled = (m' x.ledger.settled).1 ∧
    (m x).2 = (m' x.ledger.settled).2 ∧ ∀ a, (m x).2 = .ok a → Q (m x).1

/-- No write under `k` is pending. -/
def Untouched (k : String) (x : Paced) : Prop := ∀ p ∈ x.ledger.submitted, p.1 ≠ k

theorem Untouched.tick {k : String} {x : Paced} (h : Untouched k x) : Untouched k x.tick :=
  fun _ hp => h _ (Ledger.mem_submitted_commits hp)

theorem Untouched.submit {k k' : String} {x : Paced} (h : Untouched k x) (hk : k' ≠ k) (v : JSON) :
    Untouched k ⟨x.tick.ledger.submit k' v, x.tick.pace⟩ := by
  intro p hp
  rcases List.mem_append.1 hp with hp | hp
  · exact h.tick p hp
  · rw [List.mem_singleton.1 hp]; exact hk

section PacedSim

variable {α β : Type} {P Q R : Paced → Prop}

theorem pacedSim_pure (P : Paced → Prop) (a : α) : PacedSim P P (pure a) (pure a) :=
  fun _ h => ⟨rfl, rfl, fun _ _ => h⟩

theorem pacedSim_lift (P : Paced → Prop) (e : Except PyErr α) :
    PacedSim P P (monadLift e) (monadLift e) :=
  fun _ h => ⟨rfl, rfl, fun _ _ => h⟩

theorem PacedSim.bind {m : Py Paced α} {m' : Py Store α} {f : α → Py Paced β} {f' : α → Py Store β}
    (hm : PacedSim P Q m m') (hf : ∀ a, PacedSim Q R (f a) (f' a)) :
    PacedSim P R (m >>= f) (m' >>= f') := fun x hx => by
  obtain ⟨hs, hr, hq⟩ := hm x hx
  simp only [Py.run_bind]
  cases hmx : m x with
  | mk y r =>
    rw [hmx] at hs hr hq
    cases hm' : m' x.ledger.settled with
    | mk u r' =>
      rw [hm'] at hs hr
      simp only at hs hr
      subst hs hr
      cases r with
      | error e => exact ⟨rfl, rfl, fun _ h => nomatch h⟩
      | ok a => exact hf a y (hq a rfl)

theorem PacedSim.mono {P' Q' : Paced → Prop} {m : Py Paced α} {m' : Py Store α}
    (h : PacedSim P Q m m') (hP : ∀ x, P' x → P x) (hQ : ∀ x, Q x → Q' x) : PacedSim P' Q' m m' :=
  fun x hx => let ⟨hs, hr, hq⟩ := h x (hP x hx); ⟨hs, hr, fun a ha => hQ _ (hq a ha)⟩

/-- A read of a key with nothing pending under it, from a condition the validator's
commits keep. -/
theorem pacedSim_read {k : String} (hP : ∀ x, P x → P x.tick) (hk : ∀ x, P x → Untouched k x) :
    PacedSim P P (Paced.client.getValue (.str k)) (Store.client.getValue (.str k)) := fun x hx => by
  have e : x.tick.ledger.committed k = x.ledger.settled k := by
    rw [← Paced.settled_tick, Ledger.settled_of_untouched (hk x hx).tick]
  refine ⟨Paced.settled_tick x, ?_, fun _ _ => hP x hx⟩
  simp only [Paced.client_getValue_str, Store.client_getValue_str, Store.lookup, e]

/-- The read of `register_pubkey`, which writes an empty list when there is none. -/
theorem PacedSim.catchRead {k : String} {h : Py Paced JSON} {h' : Py Store JSON} (hP : ∀ x, P x → P x.tick)
    (hk : ∀ x, P x → Untouched k x) (hh : PacedSim P Q h h') (hQ : ∀ x, P x → Q x) :
    PacedSim P Q (Py.catchClient (Paced.client.getValue (.str k)) h)
      (Py.catchClient (Store.client.getValue (.str k)) h') := fun x hx => by
  have e : x.tick.ledger.committed k = x.ledger.settled k := by
    rw [← Paced.settled_tick, Ledger.settled_of_untouched (hk x hx).tick]
  unfold Py.catchClient
  simp only [Paced.client_getValue_str, Store.client_getValue_str, Store.lookup, e]
  cases x.ledger.settled k with
  | none => simpa using hh x.tick (hP x hx)
  | some v => exact ⟨Paced.settled_tick x, rfl, fun _ _ => hQ _ (hP x hx)⟩

/-- A write, after which the paced ledger satisfies `Q`. -/
theorem pacedSim_write {k : String} {v : JSON}
    (h : ∀ x, P x → Q ⟨x.tick.ledger.submit k v, x.tick.pace⟩) :
    PacedSim P Q (Paced.client.set (.str k) v) (Store.client.set (.str k) v) := fun x hx =>
  ⟨by simp [Paced.client_set_str], rfl, fun _ _ => h x hx⟩

/-- A write under any key, after which nothing more is read. -/
theorem pacedSim_set (P : Paced → Prop) (key v : JSON) :
    PacedSim P (fun _ => True) (Paced.client.set key v) (Store.client.set key v) := by
  cases key with
  | str k => exact pacedSim_write fun _ _ => trivial
  | _ => exact fun x _ => ⟨Paced.settled_tick x, rfl, fun _ h => nomatch h⟩

end PacedSim

/-! ### The handlers that read only what they have not written -/

/-- The ledger of a request served with nothing pending. -/
def Starts (s : Store) (x : Paced) : Prop := x.ledger = ⟨s, []⟩

theorem Starts.untouched {s : Store} {x : Paced} (h : Starts s x) (k : String) : Untouched k x := by
  intro p hp
  rw [h] at hp
  cases hp

theorem Starts.settled {s : Store} {x : Paced} (h : Starts s x) : x.ledger.settled = s := by
  rw [h]; rfl

theorem pacedSim_savePending (pubkey : JSON) :
    PacedSim (Untouched keyNeedReview) (fun _ => True) (savePending Paced.client pubkey)
      (savePending Store.client pubkey) :=
  (PacedSim.catchRead (fun _ h => h.tick) (fun _ h => h)
      ((pacedSim_set _ _ _).bind fun _ => pacedSim_pure _ _) fun _ _ => trivial).bind fun _ =>
    (pacedSim_lift _ _).bind fun _ => pacedSim_set _ _ _

/-- `approve_public_key` reads the pending list after it wrote the record, which is
another key. -/
theorem pacedSim_approveKey {k : String} (hk : k ≠ keyNeedReview) :
    PacedSim (fun x => Untouched k x ∧ Untouched keyNeedReview x) (fun _ => True)
      (approveKey Paced.client k) (approveKey Store.client k) :=
  (pacedSim_read (fun _ h => ⟨h.1.tick, h.2.tick⟩) fun _ h => h.1).bind fun _ =>
    (pacedSim_lift _ _).bind fun _ =>
      (pacedSim_write (Q := Untouched keyNeedReview) fun _ h => h.2.submit hk _).bind fun _ =>
        (pacedSim_read (fun _ h => h.tick) fun _ h => h).bind fun _ =>
          (pacedSim_lift _ _).bind fun _ =>
            (pacedSim_set _ _ _).bind fun _ => pacedSim_pure _ _

theorem pacedSim_signWill (t w : String) :
    PacedSim (Untouched (willPrefix ++ t)) (fun _ => True) (signWill Paced.client t w)
      (signWill Store.client t w) :=
  (pacedSim_read (fun _ h => h.tick) fun _ h => h).bind fun _ =>
    (pacedSim_lift _ _).bind fun r => by
      cases r with
      | none => exact pacedSim_pure _ _ |>.mono (fun _ h => h) fun _ _ => trivial
      | some b => exact (pacedSim_set _ _ _).bind fun _ => pacedSim_pure _ _

/-! ### The witness loop at any pace -/

/-- While the witness loop of a request served from the committed state `s` runs: the
settled ledger is as `LoopAlike` says, every pending write is of the index the first
pass over it writes and is what the index settles to, and every index is committed as
it settles or as it was. -/
structure LoopInv (s : Store) (pubkey : JSON) (l : Ledger) : Prop where
  alike : LoopAlike pubkey s l.settled
  pending : ∀ p ∈ l.submitted,
    willListAfter ((s p.1).getD (.arr [])) pubkey = .ok (some p.2) ∧ l.settled p.1 = some p.2
  committed : ∀ key, l.committed key = l.settled key ∨ l.committed key = s key

section Loop

variable {s : Store} {pubkey : JSON}

theorem loopInv_start (s : Store) (pubkey : JSON) : LoopInv s pubkey ⟨s, []⟩ :=
  ⟨fun _ => .inl rfl, fun _ h => (nomatch h), fun _ => .inl rfl⟩

theorem LoopInv.commit {l : Ledger} (h : LoopInv s pubkey l) : LoopInv s pubkey l.commit := by
  obtain ⟨c, _ | ⟨⟨k, v⟩, ws⟩⟩ := l
  · exact h
  · -- the write applied is what its index settles to
    have hk : (Ledger.settled ⟨c, (k, v) :: ws⟩) k = some v := (h.pending _ (List.mem_cons_self _ _)).2
    refine ⟨h.alike, fun p hp => h.pending p (List.mem_cons_of_mem _ hp), fun key => ?_⟩
    by_cases e : key = k
    · subst e
      exact .inl ((Store.put_apply _ _ _ _).trans (by simpa using hk.symm))
    · simpa [Ledger.commit, e] using h.committed key

theorem LoopInv.commits : ∀ {l : Ledger} (n : Nat), LoopInv s pubkey l → LoopInv s pubkey (l.commits n)
  | _, 0, h => h
  | _, n + 1, h => LoopInv.commits n h.commit

theorem LoopInv.tick {x : Paced} (h : LoopInv s pubkey x.ledger) : LoopInv s pubkey x.tick.ledger :=
  LoopInv.commits _ h

/-- Writing an index what the first pass over it writes keeps the invariant. -/
theorem LoopInv.submit {l : Ledger} (h : LoopInv s pubkey l) (hp : pyEq pubkey pubkey = true)
    {key : String} {v : JSON} (hv : willListAfter ((s key).getD (.arr [])) pubkey = .ok (some v)) :
    LoopInv s pubkey (l.submit key v) := by
  -- every write of this index is of `v`
  have huniq : ∀ {v'}, willListAfter ((s key).getD (.arr [])) pubkey = .ok (some v') → v' = v :=
    fun h' => Option.some.inj (Except.ok.inj (h'.symm.trans hv))
  refine ⟨fun key' => ?_, fun p hp' => ?_, fun key' => ?_⟩
  · by_cases e : key' = key
    · subst e
      exact .inr ⟨v, hv, by simp, willListAfter_found hp hv⟩
    · simpa [e] using h.alike key'
  · rcases List.mem_append.1 hp' with hp' | hp'
    · obtain ⟨hw, hs⟩ := h.pending p hp'
      refine ⟨hw, ?_⟩
      by_cases e : p.1 = key
      · rw [e] at hw; simp [e, huniq hw]
      · simpa [e] using hs
    · rw [List.mem_singleton.1 hp']
      exact ⟨hv, by simp⟩
  · by_cases e : key' = key
    · subst e
      rcases h.committed key' with hc | hc
      · rcases h.alike key' with ha | ⟨v', hv', ha, -⟩
        · exact .inr (hc.trans ha)
        · exact .inl (by simp [hc, ha, huniq hv'])
      · exact .inr hc
    · simpa [e] using h.committed key'

end Loop

/-- One pass of the witness loop on the paced ledger: it reads the index as committed
after the validator's commits, and commits again before it writes. -/
theorem addToWillList_paced (pubkey wn : JSON) (x : Paced) :
    addToWillList Paced.client pubkey wn x =
      match getItem wn "public_key" >>= strAdd willListPrefix with
      | .error e => (x, .error e)
      | .ok key =>
        match willListAfter ((x.tick.ledger.committed key).getD (.arr [])) pubkey with
        | .error e => (x.tick, .error e)
        | .ok none => (x.tick, .ok ())
        | .ok (some v) => (⟨x.tick.tick.ledger.submit key v, x.tick.tick.pace⟩, .ok ()) := by
  cases hk : getItem wn "public_key" >>= strAdd willListPrefix with
  | error e =>
    cases h1 : getItem wn "public_key" with
    | error e' => simp_all [addToWillList]
    | ok w => simp_all [addToWillList]
  | ok key =>
    have h1 : ∃ w, getItem wn "public_key" = .ok w ∧ strAdd willListPrefix w = .ok key := by
      cases h : getItem wn "public_key" <;> simp_all
    obtain ⟨w, h1, h2⟩ := h1
    have hread : Py.catchClient (Paced.client.getValue (.str key)) (pure (.arr [])) x
        = (x.tick, .ok ((x.tick.ledger.committed key).getD (.arr []))) := by
      cases hv : x.tick.ledger.committed key <;>
        simp [Py.catchClient, Paced.client_getValue_str, Store.lookup, hv]
    cases hl : willListAfter ((x.tick.ledger.committed key).getD (.arr [])) pubkey with
    | error e => simp [addToWillList, h1, h2, hread, hl]
    | ok r => cases r <;> simp [addToWillList, h1, h2, hread, hl, Paced.client_set_str]

/-- **A pass of the witness loop settles alike at any pace**, for a testator `==` to
itself.  A pass that reads an index an earlier pass wrote and the validator has not yet
applied writes the same again. -/
theorem pacedSim_addToWillList {s : Store} {pubkey : JSON} (hp : pyEq pubkey pubkey = true) (wn : JSON) :
    PacedSim (fun x => LoopInv s pubkey x.ledger) (fun x => LoopInv s pubkey x.ledger)
      (addToWillList Paced.client pubkey wn) (addToWillList Store.client pubkey wn) := fun x hx => by
  rw [addToWillList_paced, addToWillList_run]
  cases getItem wn "public_key" >>= strAdd willListPrefix with
  | error e => exact ⟨rfl, rfl, fun _ h => nomatch h⟩
  | ok key =>
  dsimp only
  have ht : LoopInv s pubkey x.tick.ledger := hx.tick
  have hu : x.tick.ledger.settled = x.ledger.settled := Paced.settled_tick x
  rcases hx.alike key with hA | ⟨v, hv, hB, hf⟩
  · -- the index is as it was: both passes read it alike
    have hc : x.tick.ledger.committed key = x.ledger.settled key := by
      rcases ht.committed key with h | h
      · rw [h, hu]
      · rw [h, hA]
    rw [hc]
    cases hl : willListAfter ((x.ledger.settled key).getD (.arr [])) pubkey with
    | error e => exact ⟨hu, rfl, fun _ h => nomatch h⟩
    | ok r =>
      cases r with
      | none => exact ⟨hu, rfl, fun _ _ => ht⟩
      | some v => exact ⟨by simp, rfl, fun _ _ => ht.tick.submit hp (by rwa [← hA])⟩
  · -- an earlier pass wrote the index
    rcases ht.committed key with hc | hc
    · -- and it is applied: neither pass writes
      rw [hc, hu, hB]
      simp only [Option.getD_some, hf]
      exact ⟨hu, trivial, fun _ _ => ht⟩
    · -- and it is not: the paced pass writes the same again
      rw [hc, hv, hB]
      simp only [Option.getD_some, hf]
      exact ⟨by simp [Store.put_self hB], trivial, fun _ _ => ht.tick.submit hp hv⟩

theorem pacedSim_addToWillLists {s : Store} {pubkey : JSON} (hp : pyEq pubkey pubkey = true) :
    ∀ es : List JSON, PacedSim (fun x => LoopInv s pubkey x.ledger) (fun x => LoopInv s pubkey x.ledger)
      (addToWillLists Paced.client pubkey es) (addToWillLists Store.client pubkey es)
  | [] => pacedSim_pure _ _
  | wn :: es => (pacedSim_addToWillList hp wn).bind fun _ => pacedSim_addToWillLists hp es

theorem pacedSim_saveWill (body pubkey : JSON) (hp : pyEq pubkey pubkey = true) (s : Store) :
    PacedSim (Starts s) (fun _ => True) (saveWill Paced.client body pubkey)
      (saveWill Store.client body pubkey) := by
  unfold saveWill
  refine (pacedSim_lift _ _).bind fun b => ?_
  cases b
  · simp only [Bool.false_eq_true, ite_false]
    exact (pacedSim_lift _ _).bind fun _ => (pacedSim_lift _ _).bind fun es =>
      ((pacedSim_addToWillLists hp es).mono (fun x h => h ▸ loopInv_start s pubkey) fun _ h => h).bind
        fun _ => (pacedSim_pure _ _).bind fun _ => (pacedSim_lift _ _).bind fun _ => pacedSim_set _ _ _
  · simp only [ite_true]
    exact (pacedSim_lift _ _).bind fun _ => (pacedSim_lift _ _).bind fun _ => pacedSim_set _ _ _

/-! ### Requests -/

/-- **A request settles alike at any pace**: served with nothing pending, a request that
settles alike when the validator commits only between requests settles alike wherever
its commits fall among the request's client calls, and gets the same answer. -/
theorem Call.pacedSim (c : Call) (hc : c.SettlesAlike) (s : Store) :
    PacedSim (Starts s) (fun _ => True) (c.handle Paced.client) (c.handle Store.client) := by
  cases c with
  | registerPubkey req =>
    rcases registerPubkey_front req with ⟨r, -, -, h⟩ | ⟨record, pubkey, -, h⟩
    · exact fun x _ => by simp [Call.handle, h]
    · have e : ∀ {σ : Type} (c : Client σ), IntkeyWill.registerPubkey c req = savePending c pubkey >>= fun _ =>
          (c.set pubkey record >>= fun _ => pure (wrapResponse processing 200)) := fun c => funext (h c)
      simp only [Call.handle, e]
      exact ((pacedSim_savePending pubkey).mono (fun _ h => h.untouched _) fun _ h => h).bind fun _ =>
        (pacedSim_set _ _ _).bind fun _ => pacedSim_pure _ _
  | approvePublicKey req =>
    rcases approvePublicKey_front req with ⟨r, -, -, h⟩ | ⟨k, hk, h⟩
    · exact fun x _ => by simp [Call.handle, h]
    · have e : ∀ {σ : Type} (c : Client σ), IntkeyWill.approvePublicKey c req
          = approveKey c k >>= fun body => pure (wrapResponse body 200) := fun c => funext (h c)
      simp only [Call.handle, e]
      exact ((pacedSim_approveKey fun e => hc (e ▸ hk)).mono (fun _ h => ⟨h.untouched _, h.untouched _⟩)
        fun _ h => h).bind fun _ => pacedSim_pure _ _
  | createWill req =>
    rcases createWill_front req with ⟨r, -, -, h⟩ | ⟨body, pubkey, hreq, h⟩
    · exact fun x _ => by simp [Call.handle, h]
    · have e : ∀ {σ : Type} (c : Client σ), IntkeyWill.createWill c req
          = saveWill c body pubkey >>= fun _ => pure (wrapResponse processing 200) := fun c => funext (h c)
      simp only [Call.handle, e]
      exact (pacedSim_saveWill body pubkey (hc.create hreq) s).bind fun _ => pacedSim_pure _ _
  | witnessSign req =>
    rcases witnessSign_front req with ⟨r, -, -, h⟩ | ⟨t, w, -, h⟩
    · exact fun x _ => by simp [Call.handle, h]
    · have e : ∀ {σ : Type} (c : Client σ), IntkeyWill.witnessSign c req = signWill c t w := fun c => funext (h c)
      simp only [Call.handle, e]
      exact (pacedSim_signWill t w).mono (fun _ h => h.untouched _) fun _ h => h

/-! ### No commit during a request -/

/-- `m` on the paced ledger, when the validator applies nothing while it runs, is `m'` on
the ledger under delayed commit. -/
def Unpaced {α : Type} (m : Py Paced α) (m' : Py Ledger α) : Prop :=
  ∀ l, m ⟨l, []⟩ = (⟨(m' l).1, []⟩, (m' l).2)

section Unpaced

variable {α β : Type}

theorem Unpaced.bind {m : Py Paced α} {m' : Py Ledger α} {f : α → Py Paced β} {f' : α → Py Ledger β}
    (hm : Unpaced m m') (hf : ∀ a, Unpaced (f a) (f' a)) : Unpaced (m >>= f) (m' >>= f') := fun l => by
  simp only [Py.run_bind, hm l]
  obtain ⟨l', _ | a⟩ := m' l
  · rfl
  · exact hf a l'

theorem Unpaced.catchClient {m h : Py Paced α} {m' h' : Py Ledger α} (hm : Unpaced m m')
    (hh : Unpaced h h') : Unpaced (Py.catchClient m h) (Py.catchClient m' h') := fun l => by
  unfold Py.catchClient
  rw [hm l]
  obtain ⟨l', e | a⟩ := m' l
  · cases e <;> first | rfl | exact hh l'
  · rfl

end Unpaced

namespace Paced

/-- What happens next on the ledger, when the validator may commit during a request. -/
inductive Event where
  /-- A request is served, with the validator's commits before each of its client calls. -/
  | serve (c : Call) (pace : List Nat)
  /-- The validator applies the oldest submitted write. -/
  | commit

/-- The ledger after the events `es`, the most recent first, from the committed state `s`
with nothing submitted. -/
def run (s : Store) : List Event → Ledger
  | [] => ⟨s, []⟩
  | .serve c p :: es => (c.handle client ⟨run s es, p⟩).1.ledger
  | .commit :: es => (run s es).commit

/-- The requests the events serve, the most recent first. -/
def served : List Event → List Call
  | [] => []
  | .serve c _ :: es => c :: served es
  | .commit :: es => served es

/-- Each request was served only once every write submitted before it had been applied. -/
def Waits (s : Store) : List Event → Prop
  | [] => True
  | .serve _ _ :: es => (run s es).submitted = [] ∧ Waits s es
  | .commit :: es => Waits s es

/-- **Waiting restores immediate commit, wherever the commits fall**: when each request
is served only once every write before it has been applied, the ledger settles to the
immediate-commit ledger of the requests served, in the order served, whatever the
validator applies while a request is served. -/
theorem run_settled (s : Store) : ∀ es : List Event, Waits s es →
    (∀ c ∈ served es, c.SettlesAlike) → (run s es).settled = runStore s (served es)
  | [], _, _ => rfl
  | .serve c p :: es, ⟨hq, hw⟩, hc => by
    have ih := run_settled s es hw fun c' h => hc c' (List.mem_cons_of_mem _ h)
    have hl : Starts (runStore s (served es)) ⟨run s es, p⟩ := by
      rw [← ih]; exact Ledger.eq_of_submitted_nil hq
    show (c.handle client ⟨run s es, p⟩).1.ledger.settled = (c.step (runStore s (served es))).1
    rw [(Call.pacedSim c (hc c (List.mem_cons_self _ _)) _ _ hl).1, ← ih]
    rfl
  | .commit :: es, hw, hc => by
    simpa [run, served] using run_settled s es hw hc

/-- A registration during which the validator applies the pending list's first write
before the second, then a will naming `b` twice, whose second pass reads `b`'s index
after the validator applied the first pass's write. -/
theorem run_settled_will :
    let reg := Call.registerPubkey ⟨"POST", some (.obj [("public_key", .str "a")]), []⟩
    let will : Request := ⟨"POST", some (.obj [("public_key", .str "a"),
      ("witnesses", .arr [.obj [("public_key", .str "b")], .obj [("public_key", .str "b")]])]), []⟩
    let es := [Event.commit, .serve (.createWill will) [0, 0, 1], .commit, .serve reg [0, 0, 1, 1]]
    Waits Store.empty es ∧ (∀ c ∈ served es, c.SettlesAlike) ∧
      (run Store.empty es).settled = runStore Store.empty (served es) := by
  intro reg will es
  have hw : Waits Store.empty es := ⟨by decide, rfl, trivial⟩
  have hwill : KeySelfEqual will := fun body p hb hp => by
    cases hb
    cases hp
    decide
  have hc : ∀ c ∈ served es, c.SettlesAlike := by
    simp only [es, served, List.mem_cons, List.mem_singleton, List.not_mem_nil, or_false]
    rintro c (rfl | rfl)
    exacts [hwill, trivial]
  exact ⟨hw, hc, run_settled Store.empty es hw hc⟩

end Paced

end IntkeyWill
