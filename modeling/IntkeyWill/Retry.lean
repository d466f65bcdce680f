import IntkeyWill.WitnessIndex

/-!
# Retrying a request

A client that gets no answer sends its request again.  Each of `register_pubkey`,
`approve_public_key` and `create_will` reads what it writes before writing it, and adds
to a list only what is not on it, so a retry finds its own first writes and repeats
them unchanged.  This module proves that serving a request twice leaves the ledger it
leaves when served once, on every reachable ledger, for all three handlers.

Two facts carry the argument.  `==` is reflexive on every decoded value but one that
holds `NaN`, so `x not in ys` after `ys.append(x)` is false, unless `x` holds `NaN`.
And on a reachable ledger the pending-review list holds every key at most once, so
`remove` takes off every occurrence of the approved key.  A `NaN` key breaks the
first: `register_nan_twice` is a retry that appends it a second time.

## Main definitions

* `PendingDistinct` — the pending-review list, when it is a list, has no two `==`
  elements.
* `KeySelfEqual` — the request body's `public_key` is `==` to itself.

## Main results

* `pendingDistinct_run` — `PendingDistinct` holds on every reachable ledger.
* `addToWillLists_twice` — the witness loop run again ends where it ended, with the
  same result.
* `approveKey_twice`, `saveWill_twice` — the ledger writes of an approval and of a
  will, made a second time, change nothing.
* `registerPubkey_twice`, `approvePublicKey_twice`, `createWill_twice` — serving a
  request a second time changes nothing.
* `retry_idempotent` — the three, on every reachable ledger.
* `register_nan_twice` — a `NaN` key is appended again by the retry.

## References

`src/sdk/examples/intkey_python/sawtooth_intkey/client_cli/intkey_cli.py`, lines 553–569,
659–668 and 703–721.
-/

namespace IntkeyWill

open JSON

/-! ### The pending-review list on every reachable ledger -/

/-- The pending-review list, when it is a list, has no two `==` elements. -/
def PendingDistinct (s : Store) : Prop := DistinctIfList (pendingOf s)

theorem pendingOf_put (s : Store) (k : String) (v : JSON) :
    pendingOf (s.put k v) = if keyNeedReview = k then v else pendingOf s := by
  by_cases h : keyNeedReview = k <;> simp [pendingOf, h]

@[simp] theorem pendingOf_put_self (s : Store) (v : JSON) : pendingOf (s.put keyNeedReview v) = v := by
  simp [pendingOf_put]

theorem PendingDistinct.put_obj {s : Store} (hs : PendingDistinct s) (k : String)
    (kvs : List (String × JSON)) : PendingDistinct (s.put k (.obj kvs)) := by
  unfold PendingDistinct
  rw [pendingOf_put]
  split
  · exact distinctIfList_obj kvs
  · exact hs

theorem PendingDistinct.of_eq {s s' : Store} (hs : PendingDistinct s)
    (h : s' keyNeedReview = s keyNeedReview) : PendingDistinct s' := by
  unfold PendingDistinct pendingOf
  rwa [h]

theorem PendingDistinct.registerPubkey_step {s : Store} (hs : PendingDistinct s) (req : Request) :
    PendingDistinct (registerPubkey Store.client req s).1 := by
  rcases registerPubkey_cases req s with
    ⟨r, h, -⟩ | ⟨_, _, L, -, hL, -, h⟩ | ⟨record, k, L, hreq, hL, h⟩ <;> rw [h]
  · exact hs
  · simpa [PendingDistinct] using distinctIfList_pendingAfter hs hL
  · obtain ⟨kvs, rfl⟩ := obj_of_getItem_eq_ok hreq.key
    exact PendingDistinct.put_obj (by simpa [PendingDistinct] using distinctIfList_pendingAfter hs hL) k kvs

theorem PendingDistinct.approvePublicKey_step {s : Store} (hs : PendingDistinct s) (req : Request) :
    PendingDistinct (approvePublicKey Store.client req s).1 := by
  rcases approvePublicKey_cases req s with
    ⟨r, h, -⟩ | ⟨k, body, e, -, ⟨b, -, hset⟩, -, h⟩ | ⟨k, body, l, L, -, ⟨b, -, hset⟩, hl, hL, h⟩ <;>
    rw [h] <;> [exact hs; skip; skip] <;> obtain ⟨kvs, -, rfl⟩ := setItem_eq_ok.1 hset
  · exact hs.put_obj k _
  · have hl' : DistinctIfList l := by
      have := hs.put_obj k (setField "status" (.str "approved") kvs)
      rwa [PendingDistinct, pendingOf, hl] at this
    simpa [PendingDistinct] using distinctIfList_removeIfPresent hl' hL

/-- On every reachable ledger the pending-review list, when it is a list, has no two
`==` elements. -/
theorem pendingDistinct_run (cs : List Call) : PendingDistinct (run cs) :=
  run_invariant (fun cs => PendingDistinct (run cs)) (fun _ => True) (fun _ h => by cases h)
    (fun c _ _ hs => match c with
      | .registerPubkey req => hs.registerPubkey_step req
      | .approvePublicKey req => hs.approvePublicKey_step req
      | .createWill req => hs.of_eq (createWill_frame req _ not_isWillKey_keyNeedReview)
      | .witnessSign req => hs.of_eq (witnessSign_frame req _ not_isWillKey_keyNeedReview))
    cs fun _ _ => trivial

/-! ### The witness loop run again -/

/-- A pass never changes an index on which its check finds the testator. -/
theorem addToWillList_keep {pubkey wn : JSON} {s : Store} {key : String}
    (hk : willListAfter ((s key).getD (.arr [])) pubkey = .ok none) :
    (addToWillList Store.client pubkey wn s).1 key = s key := by
  rw [addToWillList_run]
  cases hkey : getItem wn "public_key" >>= strAdd willListPrefix with
  | error e => rfl
  | ok key' =>
    dsimp only
    cases hl : willListAfter ((s key').getD (.arr [])) pubkey with
    | error e => rfl
    | ok r =>
      cases r with
      | none => rfl
      | some v =>
        have : key ≠ key' := by rintro rfl; rw [hk] at hl; cases hl
        simp [this]

/-- A pass whose check adds nothing to its index writes nothing. -/
theorem addToWillList_fst {pubkey wn : JSON} {s : Store} {key : String}
    (hkey : (getItem wn "public_key" >>= strAdd willListPrefix) = .ok key)
    (hk : ∀ v, willListAfter ((s key).getD (.arr [])) pubkey ≠ .ok (some v)) :
    (addToWillList Store.client pubkey wn s).1 = s := by
  rw [addToWillList_run, hkey]
  dsimp only
  cases hl : willListAfter ((s key).getD (.arr [])) pubkey with
  | error e => rfl
  | ok r =>
    cases r with
    | none => rfl
    | some v => exact absurd hl (hk v)

/-- A pass whose index already has the testator on it writes nothing and finishes. -/
theorem addToWillList_of_found {pubkey wn : JSON} {s : Store} {key : String}
    (hkey : (getItem wn "public_key" >>= strAdd willListPrefix) = .ok key)
    (hk : willListAfter ((s key).getD (.arr [])) pubkey = .ok none) :
    addToWillList Store.client pubkey wn s = (s, .ok ()) := by
  rw [addToWillList_run, hkey]
  simp only [hk]

/-- A pass that finishes leaves its index with the testator on it, for a testator `==`
to itself. -/
theorem addToWillList_found {pubkey wn : JSON} {s s' : Store} (hp : pyEq pubkey pubkey = true)
    (h : addToWillList Store.client pubkey wn s = (s', .ok ())) :
    ∃ key, (getItem wn "public_key" >>= strAdd willListPrefix) = .ok key ∧
      willListAfter ((s' key).getD (.arr [])) pubkey = .ok none := by
  rw [addToWillList_run] at h
  cases hkey : getItem wn "public_key" >>= strAdd willListPrefix with
  | error e => simp [hkey] at h
  | ok key =>
    refine ⟨key, rfl, ?_⟩
    simp only [hkey] at h
    cases hl : willListAfter ((s key).getD (.arr [])) pubkey with
    | error e => simp [hl] at h
    | ok r =>
      cases r with
      | none =>
        simp only [hl, Prod.mk.injEq] at h
        rwa [← h.1]
      | some v =>
        obtain ⟨L, -, rfl⟩ := willListAfter_some hl
        simp only [hl, Prod.mk.injEq] at h
        simp [← h.1, willListAfter_arr, hp]

/-- The loop never changes an index on which its check finds the testator. -/
theorem addToWillLists_keep {pubkey : JSON} {key : String} (es : List JSON) {s : Store}
    (hk : willListAfter ((s key).getD (.arr [])) pubkey = .ok none) :
    (addToWillLists Store.client pubkey es s).1 key = s key :=
  addToWillLists_preserves (fun s' => s' key = s key) pubkey
    (fun _ s' h => (addToWillList_keep
      (show willListAfter ((s' key).getD (.arr [])) pubkey = .ok none by rw [h]; exact hk)).trans h)
    es s rfl

/-- A loop that finishes leaves every entry's index with the testator on it. -/
theorem addToWillLists_found {pubkey : JSON} (hp : pyEq pubkey pubkey = true) :
    ∀ (es : List JSON) (s s' : Store), addToWillLists Store.client pubkey es s = (s', .ok ()) →
      ∀ wn ∈ es, ∃ key, (getItem wn "public_key" >>= strAdd willListPrefix) = .ok key ∧
        willListAfter ((s' key).getD (.arr [])) pubkey = .ok none
  | [], _, _, _ => by simp
  | wn :: es, s, s', h => by
    simp only [addToWillLists, Py.run_bind] at h
    cases h₁ : addToWillList Store.client pubkey wn s with
    | mk s₁ r =>
    cases r with
    | error e => simp [h₁] at h
    | ok u =>
      simp only [h₁, Py.andThen_ok] at h
      intro wn' hwn'
      rcases List.mem_cons.1 hwn' with rfl | hwn'
      · obtain ⟨key, hkey, hk⟩ := addToWillList_found hp h₁
        have hkeep := addToWillLists_keep es hk
        simp only [h] at hkeep
        exact ⟨key, hkey, by rwa [hkeep]⟩
      · exact addToWillLists_found hp es s₁ s' h wn' hwn'

/-- **The witness loop run again**, from the ledger it left, leaves that ledger and gives
the same result, for a testator `==` to itself: the second run finds the testator on
every index the first one passed, and raises where the first one raised. -/
theorem addToWillLists_twice {pubkey : JSON} (hp : pyEq pubkey pubkey = true) :
    ∀ (es : List JSON) (s : Store), addToWillLists Store.client pubkey es
      (addToWillLists Store.client pubkey es s).1 = addToWillLists Store.client pubkey es s
  | [], _ => rfl
  | wn :: es, s => by
    simp only [addToWillLists, Py.run_bind]
    cases h₁ : addToWillList Store.client pubkey wn s with
    | mk s₁ r =>
    cases r with
    | error e =>
      obtain rfl := addToWillList_error h₁
      simp [h₁]
    | ok u =>
      obtain ⟨key, hkey, hk⟩ := addToWillList_found hp h₁
      have hkeep := addToWillLists_keep es hk
      simp only [Py.andThen_ok]
      rw [addToWillList_of_found hkey (by rw [hkeep]; exact hk), Py.andThen_ok,
        addToWillLists_twice hp es s₁]

/-- A loop none of whose passes writes anything writes nothing. -/
theorem addToWillLists_of_forall {pubkey : JSON} {s : Store} :
    ∀ es : List JSON, (∀ wn ∈ es, (addToWillList Store.client pubkey wn s).1 = s) →
      (addToWillLists Store.client pubkey es s).1 = s
  | [], _ => rfl
  | wn :: es, h => by
    simp only [addToWillLists, Py.run_bind]
    cases h₁ : addToWillList Store.client pubkey wn s with
    | mk s₁ r =>
    obtain rfl : s = s₁ := by simpa [h₁] using (h wn (List.mem_cons_self _ _)).symm
    cases r with
    | error e => rfl
    | ok u => exact addToWillLists_of_forall es fun wn' hwn' => h wn' (List.mem_cons_of_mem _ hwn')

/-! ### Each handler served twice -/

/-- Serving a `register_pubkey` request again leaves the ledger it left, for a key `==` to
itself: the pending list it reads back already has the key, and the record is rewritten
as it is. -/
theorem registerPubkey_twice (req : Request) (s : Store)
    (hp : ∀ record pubkey, RegisterRequest req record pubkey → pyEq pubkey pubkey = true) :
    (registerPubkey Store.client req (registerPubkey Store.client req s).1).1
      = (registerPubkey Store.client req s).1 := by
  rcases registerPubkey_cases req s with
    ⟨r, h, -⟩ | ⟨record, p, L, hreq, hL, hns, h⟩ | ⟨record, k, L, hreq, hL, h⟩
  · simp [h]
  · -- a key that is not a string: the list is written, then the client raises
    rw [h]; dsimp only
    rcases registerPubkey_cases req (s.put keyNeedReview L) with
      ⟨r', h', -⟩ | ⟨record₂, p₂, L₂, hreq₂, hL₂, -, h'⟩ | ⟨record₂, k₂, _, hreq₂, -, -⟩
    · rw [h']
    · obtain ⟨rfl, rfl⟩ := hreq.unique hreq₂
      rw [pendingOf_put_self, pendingAfter_idem (hp _ _ hreq) hL] at hL₂
      cases hL₂
      simp [h']
    · exact absurd (hreq.unique hreq₂).2 (hns k₂)
  · -- a string key: the list, then the record
    rw [h]; dsimp only
    rcases registerPubkey_cases req ((s.put keyNeedReview L).put k record) with
      ⟨r', h', -⟩ | ⟨_, _, _, hreq₂, -, hns, -⟩ | ⟨record₂, k₂, L₂, hreq₂, hL₂, h'⟩
    · rw [h']
    · exact absurd (hreq.unique hreq₂).2.symm (hns k)
    · obtain ⟨rfl, h₂⟩ := hreq.unique hreq₂
      cases h₂
      rw [h']
      by_cases hk : keyNeedReview = k
      · subst hk
        simp
      · rw [pendingOf_put, if_neg hk, pendingOf_put_self, pendingAfter_idem (by simp) hL] at hL₂
        cases hL₂
        rw [Store.put_self (by simp [hk] : ((s.put keyNeedReview L).put k record) keyNeedReview = some L),
          Store.put_self (by simp)]

/-- Approving a key again leaves the ledger the first approval left, when the pending
list has no two `==` elements: the record is already approved, and the key is already
off the list. -/
theorem approveKey_twice (k : String) {s : Store} (hs : PendingDistinct s) :
    (approveKey Store.client k (approveKey Store.client k s).1).1 = (approveKey Store.client k s).1 := by
  simp only [approveKey_reads Store.readsFrom]
  cases hb : s k with
  | none => simp [hb]
  | some b =>
  dsimp only
  cases hset : setItem b "status" (.str "approved") with
  | error e => simp [hb, hset]
  | ok body =>
  -- the second pass reads back the approved record, and writes it back as it is
  have hbody := setItem_setItem_self hset
  have hkb : (s.put k body) k = some body := by simp
  dsimp only
  cases hl : (s.put k body) keyNeedReview with
  | none => simp only [hkb, hbody, Store.put_put, hl]
  | some l =>
  dsimp only
  cases hL : removeIfPresent l (.str k) with
  | error e => simp only [hkb, hbody, Store.put_put, hl, hL]
  | ok L =>
  -- it also reads back the list, from which the key is already removed
  have hl' : DistinctIfList l := by
    obtain ⟨kvs, -, rfl⟩ := setItem_eq_ok.1 hset
    have := hs.put_obj k (setField "status" (.str "approved") kvs)
    rwa [PendingDistinct, pendingOf, hl] at this
  have hkb' : ((s.put k body).put keyNeedReview L) k = some body := by
    by_cases e : k = keyNeedReview
    · subst e
      simp only [Store.put_apply, if_true, Option.some.injEq] at hl ⊢
      subst hl
      obtain ⟨kvs, -, rfl⟩ := setItem_eq_ok.1 hset
      exact (removeIfPresent_of_not_arr (fun _ h => by cases h) hL).1
    · simp [e]
  have hkL : ((s.put k body).put keyNeedReview L) keyNeedReview = some L := by simp
  simp only [hkb', hbody, Store.put_self hkb', hkL, removeIfPresent_idem hl' hL, Store.put_self hkL]

theorem approvePublicKey_twice (req : Request) {s : Store} (hs : PendingDistinct s) :
    (approvePublicKey Store.client req (approvePublicKey Store.client req s).1).1
      = (approvePublicKey Store.client req s).1 := by
  rcases approvePublicKey_front req with ⟨r, -, -, h⟩ | ⟨k, -, h⟩
  · simp [h]
  simp only [h, Py.andThen_pure_fst]
  exact approveKey_twice k hs

/-- Storing a will again leaves the ledger the first store left, for a testator `==` to
itself and a will that is not a list: the loop finds the testator on every index it
wrote, and raises where it raised; the will is rewritten as it is. -/
theorem saveWill_twice {body pubkey : JSON} (hp : pyEq pubkey pubkey = true)
    (hbody : ∀ L, body ≠ .arr L) (s : Store) :
    (saveWill Store.client body pubkey (saveWill Store.client body pubkey s).1).1
      = (saveWill Store.client body pubkey s).1 := by
  simp only [saveWill_run]
  cases hn : noWitnesses body with
  | error e => rfl
  | ok none =>
  cases none
  · -- witnesses: the loop, then the will
    cases hi : getItem body "witnesses" >>= pyIter with
    | error e => rfl
    | ok es =>
    dsimp only
    have hl₂ := addToWillLists_twice hp es s
    cases hl : addToWillLists Store.client pubkey es s with
    | mk s' r =>
    rw [hl] at hl₂
    cases r with
    | error e => simp only [Py.andThen_error, hl₂]
    | ok u =>
    cases hk : strAdd willPrefix pubkey with
    | error e => simp only [Py.andThen_ok, hl₂, hk]
    | ok key =>
    obtain ⟨t, rfl, rfl⟩ := strAdd_eq_ok.1 hk
    -- the will stands at no index the loop passes: the second loop writes nothing
    have hfix : (addToWillLists Store.client (.str t) es (s'.put (willPrefix ++ t) body)).1
        = s'.put (willPrefix ++ t) body := by
      refine addToWillLists_of_forall es fun wn hwn => ?_
      obtain ⟨key, hkey, hk⟩ := addToWillLists_found (by simp) es s s' hl wn hwn
      refine addToWillList_fst hkey fun v hv => ?_
      obtain ⟨L, hL, -⟩ := willListAfter_some hv
      by_cases e : key = willPrefix ++ t
      · exact hbody L (by simpa [e] using hL)
      · simp [e, hk] at hv
    cases h₂ : addToWillLists Store.client (.str t) es (s'.put (willPrefix ++ t) body) with
    | mk s₂ r₂ =>
    rw [h₂] at hfix
    subst hfix
    cases r₂ <;> simp only [Py.andThen_ok, Py.andThen_error, h₂, hk, Store.put_put]
  · -- no witnesses: the will is marked valid and stored
    cases hs : setItem body "status" (.str "valid") with
    | error e => rfl
    | ok body' => cases strAdd willPrefix pubkey <;> simp only [Store.put_put]

/-- Serving a `create_will` request again leaves the ledger it left, for a testator `==`
to itself. -/
theorem createWill_twice (req : Request) (s : Store)
    (hp : ∀ body pubkey, CreateRequest req body pubkey → pyEq pubkey pubkey = true) :
    (createWill Store.client req (createWill Store.client req s).1).1
      = (createWill Store.client req s).1 := by
  rcases createWill_front req with ⟨r, -, -, h⟩ | ⟨body, pubkey, hreq, h⟩
  · simp [h]
  simp only [h, Py.andThen_pure_fst]
  obtain ⟨kvs, rfl⟩ := obj_of_getItem_eq_ok hreq.key
  exact saveWill_twice (hp _ _ hreq) (fun _ h => by cases h) s

/-! ### Retries on every reachable ledger -/

/-- The default status leaves the body's `public_key` as it is. -/
theorem getItem_withDefaultStatus {body record : JSON} (h : withDefaultStatus body = .ok record) :
    getItem record "public_key" = getItem body "public_key" := by
  unfold withDefaultStatus at h
  cases hin : pyIn (.str "status") body with
  | error e => simp [hin] at h
  | ok b =>
    cases b
    · simp only [hin, except_bind_ok, Bool.not_false, if_true] at h
      obtain ⟨kvs, rfl, rfl⟩ := setItem_eq_ok.1 h
      simp [getItem, lookup_setField_of_ne (show "public_key" ≠ "status" by decide)]
    · simp only [hin, except_bind_ok, Bool.not_true, Bool.false_eq_true, if_false, except_pure,
        Except.ok.injEq] at h
      rw [h]

/-- The request's body has no `public_key`, or one `==` to itself: every decoded value
is, but one that holds `NaN`. -/
def KeySelfEqual (req : Request) : Prop :=
  ∀ body pubkey, req.json = .ok body → getItem body "public_key" = .ok pubkey →
    pyEq pubkey pubkey = true

theorem KeySelfEqual.register {req : Request} (h : KeySelfEqual req) {record pubkey : JSON}
    (hreq : RegisterRequest req record pubkey) : pyEq pubkey pubkey = true := by
  obtain ⟨-, ⟨b, hb, -, hr⟩, hp⟩ := hreq
  exact h b pubkey hb (by rw [← getItem_withDefaultStatus hr, hp])

theorem KeySelfEqual.create {req : Request} (h : KeySelfEqual req) {body pubkey : JSON}
    (hreq : CreateRequest req body pubkey) : pyEq pubkey pubkey = true :=
  h body pubkey hreq.json hreq.key

/-- **Retries converge**: on every reachable ledger, serving a `register_pubkey`, an
`approve_public_key` or a `create_will` request twice in succession leaves the ledger
that serving it once leaves, when the bodies' `public_key`s are `==` to themselves. -/
theorem retry_idempotent (cs : List Call) (reg app create : Request)
    (hreg : KeySelfEqual reg) (hcreate : KeySelfEqual create) :
    run (.registerPubkey reg :: .registerPubkey reg :: cs) = run (.registerPubkey reg :: cs) ∧
    run (.approvePublicKey app :: .approvePublicKey app :: cs) = run (.approvePublicKey app :: cs) ∧
    run (.createWill create :: .createWill create :: cs) = run (.createWill create :: cs) :=
  ⟨registerPubkey_twice reg (run cs) fun _ _ => hreg.register,
    approvePublicKey_twice app (pendingDistinct_run cs),
    createWill_twice create (run cs) fun _ _ => hcreate.create⟩

theorem retry_idempotent_alice :
    let reg : Request := ⟨"POST", some (.obj [("public_key", .str "alice")]), []⟩
    let app : Request := ⟨"GET", none, [("public_key", "alice")]⟩
    let create : Request := ⟨"POST", some (.obj [("public_key", .str "alice"),
      ("witnesses", .arr [.obj [("public_key", .str "bob")]])]), []⟩
    KeySelfEqual reg ∧ KeySelfEqual create ∧
    run [.registerPubkey reg, .registerPubkey reg] = run [.registerPubkey reg] ∧
    run [.approvePublicKey app, .approvePublicKey app] = run [.approvePublicKey app] ∧
    run [.createWill create, .createWill create] = run [.createWill create] := by
  intro reg app create
  have hreg : KeySelfEqual reg := fun body p hb hp => by
    cases hb
    cases hp
    decide
  have hcreate : KeySelfEqual create := fun body p hb hp => by
    cases hb
    cases hp
    decide
  exact ⟨hreg, hcreate, retry_idempotent [] reg app create hreg hcreate⟩

/-- A body whose `public_key` is `NaN`: the request appends it to the pending list, then
raises, since the ledger takes string keys only; its retry appends it again, since `NaN`
is not `==` to the `NaN` on the list. -/
theorem register_nan_twice :
    let c := Call.registerPubkey ⟨"POST", some (.obj [("public_key", .num .nan)]), []⟩
    run [c] keyNeedReview = some (.arr [.num .nan]) ∧
      run [c, c] keyNeedReview = some (.arr [.num .nan, .num .nan]) :=
  ⟨by decide, by decide⟩

end IntkeyWill
