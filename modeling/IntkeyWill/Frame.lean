import IntkeyWill.Will

/-!
# What one request can write

The registry and the will ledger share one flat namespace: a record is stored under
its public key as given, a will under `WILL_` and its testator, an index under
`WILL_LIST_` and its witness.  The will handlers only ever write keys that start with
`WILL_`, but the registry writes under whatever key the request names, so a public key
that itself starts with `WILL_` reaches the will ledger.

No handler undoes a write when a later step raises, and several handlers write more
than once: `register_pubkey` writes the pending list before the record, `approve_public_key`
the record before the pending list, and `create_will` each witness's index before the
will.  What a rejected request leaves behind is therefore decided by where it fails.

## Main results

* `registerPubkey_frame`, `approvePublicKey_frame`, `createWill_frame`,
  `witnessSign_frame` — the keys each handler can write.
* `registry_wills_disjoint` — the will handlers never write outside `WILL_`, and the
  registry writes inside it only under the key it registers or approves.
* `rejected_requests` — a request answered with 400 writes nothing; a raise leaves
  nothing behind in `witness_sign`, only the pending list in `register_pubkey`, only the
  approved record in `approve_public_key`, and only witnesses' indexes in `create_will`.
-/

namespace IntkeyWill

open JSON

/-! ### Frames of the handlers -/

theorem registerPubkey_frame (req : Request) (s : Store) {k : String} (hk : k ≠ keyNeedReview)
    (hown : ∀ record, ¬ RegisterRequest req record (.str k)) :
    (registerPubkey Store.client req s).1 k = s k := by
  rcases registerPubkey_cases req s with
    ⟨r, h, -⟩ | ⟨record, pubkey, L, -, -, -, h⟩ | ⟨record, k', L, hreq, -, h⟩
  · rw [h]
  · simp [h, hk]
  · have hk' : k ≠ k' := fun e => hown record (e ▸ hreq)
    simp [h, hk, hk']

theorem approvePublicKey_frame (req : Request) (s : Store) {k : String} (hk : k ≠ keyNeedReview)
    (hown : ¬ ApproveRequest req k) : (approvePublicKey Store.client req s).1 k = s k := by
  rcases approvePublicKey_cases req s with
    ⟨r, h, -⟩ | ⟨k', body, e, hreq, -, -, h⟩ | ⟨k', body, l, L, hreq, -, -, -, h⟩
  · rw [h]
  all_goals
    have hk' : k ≠ k' := fun e => hown (e ▸ hreq)
    simp [h, hk, hk']

theorem createWill_frame (req : Request) (s : Store) {k : String} (hk : ¬ IsWillKey k) :
    (createWill Store.client req s).1 k = s k := by
  have hidx : ∀ w, k ≠ willListPrefix ++ w := fun w e => hk (e ▸ isWillKey_willListPrefix w)
  have hwill : ∀ t, k ≠ willPrefix ++ t := fun t e => hk (e ▸ isWillKey_willPrefix t)
  rcases createWill_cases req s with
    ⟨r, h, -⟩ | ⟨body, pubkey, es, e, -, -, -, h⟩ | ⟨body, t, body', -, -, -, h⟩ |
      ⟨body, t, es, s', -, -, hl, h⟩
  · rw [h]
  · rw [h]; exact addToWillLists_frame pubkey es s hidx
  · simp [h, hwill t]
  · have := addToWillLists_frame (.str t) es s hidx
    simp [h, hwill t, ← this, hl]

theorem witnessSign_frame (req : Request) (s : Store) {k : String} (hk : ¬ IsWillKey k) :
    (witnessSign Store.client req s).1 k = s k := by
  rcases witnessSign_cases req s with ⟨r, h, -⟩ | ⟨t, w, W, W', -, -, -, h⟩
  · rw [h]
  · have : k ≠ willPrefix ++ t := fun e => hk (e ▸ isWillKey_willPrefix t)
    simp [h, this]

/-! ### The registry and the will ledger -/

/-- Registering the key `WILL_alice` overwrites the will key of `alice`. -/
theorem register_writes_will_key :
    IsWillKey "WILL_alice" ∧
      (registerPubkey Store.client ⟨"POST", some (.obj [("public_key", .str "WILL_alice")]), []⟩
        Store.empty).1 "WILL_alice" ≠ Store.empty "WILL_alice" :=
  ⟨⟨"alice", rfl⟩, by decide⟩

/-- **The two halves of the namespace.**  `create_will` and `witness_sign` leave
`KEY_NEED_REVIEW` and every key outside `WILL_` as they were; `register_pubkey` and
`approve_public_key` leave every key inside `WILL_` as it was, except the one key the
request registers or approves. -/
theorem registry_wills_disjoint (req : Request) (s : Store) :
    (∀ k, IsWillKey k → (∀ record, ¬ RegisterRequest req record (.str k)) →
      (registerPubkey Store.client req s).1 k = s k) ∧
    (∀ k, IsWillKey k → ¬ ApproveRequest req k →
      (approvePublicKey Store.client req s).1 k = s k) ∧
    (∀ k, k = keyNeedReview ∨ ¬ IsWillKey k →
      (createWill Store.client req s).1 k = s k ∧ (witnessSign Store.client req s).1 k = s k) := by
  have hknr : ∀ k, IsWillKey k → k ≠ keyNeedReview :=
    fun k hk e => not_isWillKey_keyNeedReview (e ▸ hk)
  refine ⟨fun k hk => registerPubkey_frame req s (hknr k hk),
    fun k hk => approvePublicKey_frame req s (hknr k hk), fun k hk => ?_⟩
  have hk' : ¬ IsWillKey k := by
    rcases hk with rfl | hk
    · exact not_isWillKey_keyNeedReview
    · exact hk
  exact ⟨createWill_frame req s hk', witnessSign_frame req s hk'⟩

/-- A registration of `alice` leaves the index key of `bob` alone, and a will request
leaves the pending list alone. -/
theorem registry_wills_disjoint_alice :
    let reg : Request := ⟨"POST", some (.obj [("public_key", .str "alice")]), []⟩
    let will : Request := ⟨"POST", some (.obj [("public_key", .str "alice"),
      ("witnesses", .arr [.obj [("public_key", .str "bob")]])]), []⟩
    let s := (registerPubkey Store.client reg Store.empty).1
    IsWillKey "WILL_bob" ∧ (∀ record, ¬ RegisterRequest reg record (.str "WILL_bob")) ∧
      (registerPubkey Store.client reg s).1 "WILL_bob" = s "WILL_bob" ∧
      (createWill Store.client will s).1 keyNeedReview = s keyNeedReview ∧
      (witnessSign Store.client will s).1 keyNeedReview = s keyNeedReview := by
  intro reg will s
  have hk : IsWillKey "WILL_bob" := ⟨"bob", rfl⟩
  have hr : ∀ record, ¬ RegisterRequest reg record (.str "WILL_bob") := fun _ h =>
    absurd ((RegisterRequest.unique h ⟨rfl, ⟨_, rfl, rfl, rfl⟩, rfl⟩).2) (by decide)
  exact ⟨hk, hr, (registry_wills_disjoint reg s).1 _ hk hr,
    (registry_wills_disjoint will s).2.2 _ (.inl rfl)⟩

/-! ### Rejected requests -/

section Rejected

variable {req : Request} {s : Store} {r : Response} {e : PyErr}

theorem registerPubkey_of_status_400 (h : (registerPubkey Store.client req s).2 = .ok r)
    (h4 : r.status = 400) : (registerPubkey Store.client req s).1 = s := by
  rcases registerPubkey_cases req s with ⟨r', h', -⟩ | ⟨_, _, _, -, -, -, h'⟩ | ⟨_, _, _, -, -, h'⟩ <;>
    rw [h'] at h ⊢
  · cases h
  · cases h; cases h4

theorem approvePublicKey_of_status_400 (h : (approvePublicKey Store.client req s).2 = .ok r)
    (h4 : r.status = 400) : (approvePublicKey Store.client req s).1 = s := by
  rcases approvePublicKey_cases req s with ⟨r', h', -⟩ | ⟨_, _, _, -, -, -, h'⟩ | ⟨_, _, _, _, -, -, -, -, h'⟩ <;>
    rw [h'] at h ⊢
  · cases h
  · cases h; cases h4

theorem createWill_of_status_400 (h : (createWill Store.client req s).2 = .ok r)
    (h4 : r.status = 400) : (createWill Store.client req s).1 = s := by
  rcases createWill_cases req s with
    ⟨r', h', -⟩ | ⟨_, _, _, _, -, -, -, h'⟩ | ⟨_, _, _, -, -, -, h'⟩ | ⟨_, _, _, _, -, -, -, h'⟩ <;>
    rw [h'] at h ⊢
  · cases h
  all_goals cases h; cases h4

theorem witnessSign_of_status_400 (h : (witnessSign Store.client req s).2 = .ok r)
    (h4 : r.status = 400) : (witnessSign Store.client req s).1 = s := by
  rcases witnessSign_cases req s with ⟨r', h', -⟩ | ⟨_, _, _, _, -, -, -, h'⟩ <;> rw [h'] at h ⊢
  cases h; cases h4

theorem witnessSign_of_raise (h : (witnessSign Store.client req s).2 = .error e) :
    (witnessSign Store.client req s).1 = s := by
  rcases witnessSign_cases req s with ⟨r', h', -⟩ | ⟨_, _, _, _, -, -, -, h'⟩ <;> rw [h'] at h ⊢
  cases h

theorem registerPubkey_of_raise (h : (registerPubkey Store.client req s).2 = .error e) :
    (registerPubkey Store.client req s).1 = s ∨
      (∃ record pubkey, RegisterRequest req record pubkey ∧ ∀ k, pubkey ≠ .str k) ∧
        ∀ k, k ≠ keyNeedReview → (registerPubkey Store.client req s).1 k = s k := by
  rcases registerPubkey_cases req s with
    ⟨r', h', -⟩ | ⟨record, pubkey, L, hreq, -, hstr, h'⟩ | ⟨_, _, _, -, -, h'⟩ <;> rw [h'] at h ⊢
  · exact .inl rfl
  · exact .inr ⟨⟨record, pubkey, hreq, hstr⟩, fun k hk => by simp [hk]⟩
  · cases h

theorem approvePublicKey_of_raise (h : (approvePublicKey Store.client req s).2 = .error e)
    {k : String} (hk : ¬ ApproveRequest req k) : (approvePublicKey Store.client req s).1 k = s k := by
  rcases approvePublicKey_cases req s with
    ⟨r', h', -⟩ | ⟨k', body, e', hreq, -, -, h'⟩ | ⟨_, _, _, _, -, -, -, -, h'⟩ <;> rw [h'] at h ⊢
  · have hk' : k ≠ k' := fun e => hk (e ▸ hreq)
    simp [hk']
  · cases h

theorem createWill_of_raise (h : (createWill Store.client req s).2 = .error e) {k : String}
    (hk : ∀ w, k ≠ willListPrefix ++ w) : (createWill Store.client req s).1 k = s k := by
  rcases createWill_cases req s with
    ⟨r', h', -⟩ | ⟨_, pubkey, es, _, -, -, -, h'⟩ | ⟨_, _, _, -, -, -, h'⟩ | ⟨_, _, _, _, -, -, -, h'⟩ <;>
    rw [h'] at h ⊢
  · exact addToWillLists_frame pubkey es s hk
  all_goals cases h

end Rejected

/-- A `create_will` whose second witness entry is not an object raises, after it has
added `alice` to the index of the first witness. -/
theorem createWill_raises_after_write :
    let req : Request := ⟨"POST", some (.obj [("public_key", .str "alice"),
      ("witnesses", .arr [.obj [("public_key", .str "bob")], .num (.finite 7)])]), []⟩
    (createWill Store.client req Store.empty).2 = .error .typeError ∧
      (createWill Store.client req Store.empty).1 "WILL_LIST_bob" = some (.arr [.str "alice"]) :=
  ⟨rfl, by decide⟩

/-- **What a rejected request leaves behind.**  A request answered with 400 writes
nothing.  A request that raises leaves nothing behind in `witness_sign`; in
`register_pubkey` only the pending list, and only when the public key is not a string;
in `approve_public_key` only the record it approved; in `create_will` only witnesses'
indexes. -/
theorem rejected_requests (req : Request) (s : Store) :
    ((∀ r, (registerPubkey Store.client req s).2 = .ok r → r.status = 400 →
        (registerPubkey Store.client req s).1 = s) ∧
      (∀ r, (approvePublicKey Store.client req s).2 = .ok r → r.status = 400 →
        (approvePublicKey Store.client req s).1 = s) ∧
      (∀ r, (createWill Store.client req s).2 = .ok r → r.status = 400 →
        (createWill Store.client req s).1 = s) ∧
      (∀ r, (witnessSign Store.client req s).2 = .ok r → r.status = 400 →
        (witnessSign Store.client req s).1 = s)) ∧
    ((∀ e, (witnessSign Store.client req s).2 = .error e → (witnessSign Store.client req s).1 = s) ∧
      (∀ e, (registerPubkey Store.client req s).2 = .error e →
        (registerPubkey Store.client req s).1 = s ∨
          (∃ record pubkey, RegisterRequest req record pubkey ∧ ∀ k, pubkey ≠ .str k) ∧
            ∀ k, k ≠ keyNeedReview → (registerPubkey Store.client req s).1 k = s k) ∧
      (∀ e, (approvePublicKey Store.client req s).2 = .error e →
        ∀ k, ¬ ApproveRequest req k → (approvePublicKey Store.client req s).1 k = s k) ∧
      (∀ e, (createWill Store.client req s).2 = .error e →
        ∀ k, (∀ w, k ≠ willListPrefix ++ w) → (createWill Store.client req s).1 k = s k)) :=
  ⟨⟨fun _ => registerPubkey_of_status_400, fun _ => approvePublicKey_of_status_400,
      fun _ => createWill_of_status_400, fun _ => witnessSign_of_status_400⟩,
    ⟨fun _ => witnessSign_of_raise, fun _ => registerPubkey_of_raise,
      fun _ h _ => approvePublicKey_of_raise h, fun _ h _ => createWill_of_raise h⟩⟩

/-- An approval with no key is answered with 400 and writes nothing; a signature of a
will never written, and an approval of a key never registered, raise and write nothing. -/
theorem rejected_requests_alice :
    let noKey : Request := ⟨"GET", none, []⟩
    let appr : Request := ⟨"GET", none, [("public_key", "alice")]⟩
    let sign : Request := ⟨"GET", none, [("public_key", "alice"), ("witness", "bob")]⟩
    (approvePublicKey Store.client noKey Store.empty).2 =
        .ok (wrapResponse (failure "Missing public_key") 400) ∧
      (approvePublicKey Store.client noKey Store.empty).1 = Store.empty ∧
      (witnessSign Store.client sign Store.empty).2 = .error .keyNotFound ∧
      (witnessSign Store.client sign Store.empty).1 = Store.empty ∧
      (approvePublicKey Store.client appr Store.empty).2 = .error .keyNotFound ∧
      ¬ ApproveRequest appr "bob" ∧
      (approvePublicKey Store.client appr Store.empty).1 "bob" = Store.empty "bob" := by
  intro noKey appr sign
  have h₄ : (approvePublicKey Store.client noKey Store.empty).2 =
      .ok (wrapResponse (failure "Missing public_key") 400) := rfl
  have hw : (witnessSign Store.client sign Store.empty).2 = .error .keyNotFound := rfl
  have ha : (approvePublicKey Store.client appr Store.empty).2 = .error .keyNotFound := rfl
  have hb : ¬ ApproveRequest appr "bob" := fun h => absurd h.key (by decide)
  exact ⟨h₄, (rejected_requests noKey Store.empty).1.2.1 _ h₄ rfl, hw,
    (rejected_requests sign Store.empty).2.1 _ hw, ha, hb,
    (rejected_requests appr Store.empty).2.2.2.1 _ ha _ hb⟩

end IntkeyWill
