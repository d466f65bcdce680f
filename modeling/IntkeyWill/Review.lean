import IntkeyWill.Run

/-!
# The review of public keys

`register_pubkey` puts a key on the pending-review list stored under `KEY_NEED_REVIEW`
and stores its record; `approve_public_key` marks the record `approved` and takes the
key off the list.  Over a run of these two handlers, the list and the records are tied
to the run's history: `ReviewInv` says how, and holds of every run in which no request
registers `KEY_NEED_REVIEW` itself.

A record whose request body already says `approved` is stored as it is, so a record
is approved when the key was approved since its last registration, or when that
registration carried the status itself.

## Main definitions

* `Approved`, `pendingKeys` — an approved record; the pending-review list of a ledger.
* `Registered`, `Pending`, `ApprovedSince`, `RegisteredApproved` — the history of a key.
* `ReviewInv` — what every run keeps of the list and the records.

## Main results

* `ReviewInv.registerPubkey_step`, `ReviewInv.approvePublicKey_step` — one request
  keeps the invariant.
* `reviewInv_run` — every run of registry requests that registers no key
  `KEY_NEED_REVIEW` satisfies it.
-/

namespace IntkeyWill

open JSON

/-- A record whose status is `approved`. -/
def Approved (v : JSON) : Prop := getItem v "status" = .ok (.str "approved")

/-- The elements of the pending-review list of a ledger, when it is a list. -/
def pendingKeys (s : Store) : List JSON :=
  match s keyNeedReview with
  | some (.arr L) => L
  | _ => []

@[simp] theorem pendingKeys_put_keyNeedReview (s : Store) (L : List JSON) :
    pendingKeys (s.put keyNeedReview (.arr L)) = L := by
  simp [pendingKeys]

theorem pendingKeys_put_of_ne (s : Store) {k : String} (hk : k ≠ keyNeedReview) (v : JSON) :
    pendingKeys (s.put k v) = pendingKeys s := by
  simp [pendingKeys, Ne.symm hk]

/-! ### The history of a key -/

/-- `k` has been registered in the run. -/
def Registered (k : String) : List Call → Prop :=
  Since (·.Registers k fun _ => True) fun _ => False

/-- `k` awaits review: registered, and not approved since its last registration. -/
def Pending (k : String) : List Call → Prop :=
  Since (·.Registers k fun _ => True) (·.Approves k)

/-- `k` has been approved since its last registration. -/
def ApprovedSince (k : String) : List Call → Prop :=
  Since (·.Approves k) (·.Registers k fun _ => True)

/-- The last registration of `k` stored a record that was already approved. -/
def RegisteredApproved (k : String) : List Call → Prop :=
  Since (·.Registers k Approved) (·.Registers k fun r => ¬ Approved r)

/-- What a run of registry requests keeps of the pending-review list and the records. -/
structure ReviewInv (cs : List Call) : Prop where
  /-- The pending-review list is absent, or a list. -/
  shape : run cs keyNeedReview = none ∨ run cs keyNeedReview = some (.arr (pendingKeys (run cs)))
  /-- No two of its elements are `==`. -/
  distinct : Distinct (pendingKeys (run cs))
  /-- A key is on it exactly while it awaits review. -/
  pending : ∀ k, .str k ∈ pendingKeys (run cs) ↔ Pending k cs
  /-- A record is stored under a key exactly when the key was registered. -/
  recorded : ∀ k, k ≠ keyNeedReview → (run cs k ≠ none ↔ Registered k cs)
  /-- Once a key is registered, the pending-review list exists. -/
  listed : ∀ k, Registered k cs → run cs keyNeedReview ≠ none
  /-- A record is approved exactly when it was approved since its registration, or
  registered approved. -/
  approved : ∀ k, k ≠ keyNeedReview →
    ((∃ v, run cs k = some v ∧ Approved v) ↔ ApprovedSince k cs ∨ RegisteredApproved k cs)

theorem reviewInv_nil : ReviewInv [] where
  shape := .inl rfl
  distinct := List.Pairwise.nil
  pending k := by simp [pendingKeys, Pending]
  recorded k _ := by simp [Registered]
  listed k := by simp [Registered]
  approved k _ := by simp [ApprovedSince, RegisteredApproved]

section Step

variable {cs : List Call}

/-- A request that writes nothing and does not succeed keeps the invariant. -/
theorem ReviewInv.of_unchanged (inv : ReviewInv cs) {c : Call} {r : Except PyErr Response}
    (h : c.step (run cs) = (run cs, r)) (hs : ¬ Succeeded r) : ReviewInv (c :: cs) := by
  have hsince {p stop : Call → Prop} : Since p stop (c :: cs) ↔ Since p stop cs :=
    since_cons_of_not_succeeds (by rwa [Call.Succeeds, h])
  have hrun : run (c :: cs) = run cs := by rw [run_cons, h]
  refine ⟨?_, ?_, fun k => ?_, fun k hk => ?_, fun k => ?_, fun k hk => ?_⟩ <;> rw [hrun]
  · exact inv.shape
  · exact inv.distinct
  · exact (inv.pending k).trans hsince.symm
  · exact (inv.recorded k hk).trans hsince.symm
  · exact fun h => inv.listed k (hsince.1 h)
  · exact (inv.approved k hk).trans (or_congr hsince hsince).symm

/-- `register_pubkey` writes the set insertion of the key as the pending list. -/
theorem ReviewInv.pendingAfter_eq (inv : ReviewInv cs) (pubkey : JSON) :
    pendingAfter (pendingOf (run cs)) pubkey = .ok (.arr (appendNew (pendingKeys (run cs)) pubkey)) := by
  rcases inv.shape with h | h
  · simp [pendingOf, h, pendingAfter_null, pendingKeys, appendNew]
  · rw [pendingOf, h, Option.getD_some, pendingAfter_arr]

/-- `approve_public_key` never writes `KEY_NEED_REVIEW` as a record: it holds no dict. -/
theorem ReviewInv.approved_key_ne (inv : ReviewInv cs) {k : String} {b body : JSON}
    (hb : run cs k = some b) (hset : setItem b "status" (.str "approved") = .ok body) :
    k ≠ keyNeedReview := by
  rintro rfl
  obtain ⟨kvs, rfl, -⟩ := setItem_eq_ok.1 hset
  rcases inv.shape with h | h <;> simp [h] at hb

/-- The key of a stored record was registered, so the pending-review list is a list. -/
theorem ReviewInv.listed_of_record (inv : ReviewInv cs) {k : String} {b : JSON}
    (hk : k ≠ keyNeedReview) (hb : run cs k = some b) :
    run cs keyNeedReview = some (.arr (pendingKeys (run cs))) :=
  inv.shape.resolve_left (inv.listed k ((inv.recorded k hk).1 (by simp [hb])))

/-- Under the invariant, what one `register_pubkey` can do: nothing; write the pending
list and raise, for a key that is not a string; or write the list and the record. -/
theorem ReviewInv.register_cases (inv : ReviewInv cs) (req : Request)
    (hknr : ¬ (Call.registerPubkey req).Registers keyNeedReview fun _ => True) :
    (∃ r, registerPubkey Store.client req (run cs) = (run cs, r) ∧ ¬ Succeeded r) ∨
    (∃ record p, RegisterRequest req record p ∧ (∀ k, p ≠ .str k) ∧
      registerPubkey Store.client req (run cs)
        = ((run cs).put keyNeedReview (.arr (appendNew (pendingKeys (run cs)) p)), .error .invalidKey)) ∨
    (∃ record k, RegisterRequest req record (.str k) ∧ k ≠ keyNeedReview ∧
      registerPubkey Store.client req (run cs)
        = (((run cs).put keyNeedReview (.arr (appendNew (pendingKeys (run cs)) (.str k)))).put k record,
            .ok (wrapResponse processing 200))) := by
  rcases registerPubkey_cases req (run cs) with
    h | ⟨record, p, L, hreq, hL, hp, h⟩ | ⟨record, k, L, hreq, hL, h⟩
  · exact .inl h
  · rw [inv.pendingAfter_eq] at hL
    cases hL
    exact .inr (.inl ⟨record, p, hreq, hp, h⟩)
  · rw [inv.pendingAfter_eq] at hL
    cases hL
    exact .inr (.inr ⟨record, k, hreq, fun e => hknr ((registers_iff hreq _ _).2 ⟨e.symm, trivial⟩), h⟩)

/-- Under the invariant, what one `approve_public_key` can do: nothing, or approve a
stored record and take its key off the pending list.  Taking the key off cannot
raise, since the list is a list. -/
theorem ReviewInv.approve_cases (inv : ReviewInv cs) (req : Request) :
    (∃ r, approvePublicKey Store.client req (run cs) = (run cs, r) ∧ ¬ Succeeded r) ∨
    (∃ k kvs, ApproveRequest req k ∧ k ≠ keyNeedReview ∧ run cs k = some (.obj kvs) ∧
      approvePublicKey Store.client req (run cs)
        = (((run cs).put k (.obj (setField "status" (.str "approved") kvs))).put keyNeedReview
            (.arr ((pendingKeys (run cs)).erase (.str k))),
          .ok (wrapResponse (.obj (setField "status" (.str "approved") kvs)) 200))) := by
  rcases approvePublicKey_cases req (run cs) with
    h | ⟨k, body, e, -, ⟨b, hb, hset⟩, hfail, -⟩ | ⟨k, body, l, L, hreq, ⟨b, hb, hset⟩, hl, hL, h⟩
  · exact .inl h
  · have hk := inv.approved_key_ne hb hset
    simp [Store.lookup, Ne.symm hk, inv.listed_of_record hk hb, removeIfPresent_str] at hfail
  · have hk := inv.approved_key_ne hb hset
    obtain rfl : l = .arr (pendingKeys (run cs)) := by
      simpa [Ne.symm hk, inv.listed_of_record hk hb] using hl.symm
    rw [removeIfPresent_str] at hL
    cases hL
    obtain ⟨kvs, rfl, rfl⟩ := setItem_eq_ok.1 hset
    exact .inr ⟨k, kvs, hreq, hk, hb, h⟩

/-! #### The history after a successful registration of `k'` -/

section Register

variable {req : Request} {record : JSON} {k' : String} (hreq : RegisterRequest req record (.str k'))
  (hs : (Call.registerPubkey req).Succeeds cs) (k : String)
include hreq hs

theorem registered_cons_register : Registered k (.registerPubkey req :: cs) ↔ k = k' ∨ Registered k cs := by
  simp [Registered, since_cons_of_succeeds hs, registers_iff hreq]

theorem pending_cons_register : Pending k (.registerPubkey req :: cs) ↔ k = k' ∨ Pending k cs := by
  simp [Pending, since_cons_of_succeeds hs, registers_iff hreq]

theorem approvedSince_cons_register :
    ApprovedSince k (.registerPubkey req :: cs) ↔ k ≠ k' ∧ ApprovedSince k cs := by
  simp [ApprovedSince, since_cons_of_succeeds hs, registers_iff hreq]

theorem registeredApproved_cons_register :
    RegisteredApproved k (.registerPubkey req :: cs) ↔ if k = k' then Approved record else RegisteredApproved k cs := by
  by_cases e : k = k'
  · simp only [RegisteredApproved, since_cons_of_succeeds hs, registers_iff hreq, e, if_true,
      true_and, not_not]
    exact ⟨And.left, fun h => ⟨h, .inl h⟩⟩
  · simp [RegisteredApproved, since_cons_of_succeeds hs, registers_iff hreq, e]

end Register

/-! #### The history after a successful approval of `k'` -/

section Approve

variable {req : Request} {k' : String} (hreq : ApproveRequest req k')
  (hs : (Call.approvePublicKey req).Succeeds cs) (k : String)
include hreq hs

omit hreq in
theorem registered_cons_approve : Registered k (.approvePublicKey req :: cs) ↔ Registered k cs := by
  simp [Registered, since_cons_of_succeeds hs]

theorem pending_cons_approve : Pending k (.approvePublicKey req :: cs) ↔ k ≠ k' ∧ Pending k cs := by
  simp [Pending, since_cons_of_succeeds hs, approves_iff hreq]

theorem approvedSince_cons_approve :
    ApprovedSince k (.approvePublicKey req :: cs) ↔ k = k' ∨ ApprovedSince k cs := by
  simp [ApprovedSince, since_cons_of_succeeds hs, approves_iff hreq]

omit hreq in
theorem registeredApproved_cons_approve :
    RegisteredApproved k (.approvePublicKey req :: cs) ↔ RegisteredApproved k cs := by
  simp [RegisteredApproved, since_cons_of_succeeds hs]

end Approve

/-- A registration keeps the invariant, unless it registers `KEY_NEED_REVIEW`. -/
theorem ReviewInv.registerPubkey_step (inv : ReviewInv cs) {req : Request}
    (hknr : ¬ (Call.registerPubkey req).Registers keyNeedReview fun _ => True) :
    ReviewInv (.registerPubkey req :: cs) := by
  rcases inv.register_cases req hknr with
    ⟨r, h, hs⟩ | ⟨record, p, -, hp, h⟩ | ⟨record, k', hreq, hk', h⟩
  · exact inv.of_unchanged h hs
  · -- a key that is not a string: the list is written, then the record write raises
    have hsince {p stop : Call → Prop} : Since p stop (.registerPubkey req :: cs) ↔ Since p stop cs :=
      since_cons_of_not_succeeds (by simp [Call.Succeeds, Call.step, Call.handle, h])
    have hrun := congrArg Prod.fst h
    refine ⟨.inr (by simp [run_cons, Call.step, Call.handle, hrun]), ?_, fun k => ?_, fun k hk => ?_,
      fun _ _ => by simp [run_cons, Call.step, Call.handle, hrun], fun k hk => ?_⟩ <;>
    simp only [run_cons, Call.step, Call.handle, hrun, pendingKeys_put_keyNeedReview]
    · exact inv.distinct.appendNew p
    · rw [mem_appendNew_of_ne fun e => hp k e.symm]
      exact (inv.pending k).trans hsince.symm
    · rw [Store.put_apply, if_neg hk]
      exact (inv.recorded k hk).trans hsince.symm
    · rw [Store.put_apply, if_neg hk]
      exact (inv.approved k hk).trans (or_congr hsince hsince).symm
  · -- a string key: the list gets the key, the key gets the record
    have hs : (Call.registerPubkey req).Succeeds cs := by
      simp only [Call.Succeeds, Call.step, Call.handle, h]
      exact succeeded_wrapResponse (by simp [processing])
    have hrun : run (.registerPubkey req :: cs)
        = ((run cs).put keyNeedReview (.arr (appendNew (pendingKeys (run cs)) (.str k')))).put k' record :=
      congrArg Prod.fst h
    have hkeys : pendingKeys (run (.registerPubkey req :: cs)) = appendNew (pendingKeys (run cs)) (.str k') := by
      rw [hrun, pendingKeys_put_of_ne _ hk', pendingKeys_put_keyNeedReview]
    refine ⟨.inr ?_, by rw [hkeys]; exact inv.distinct.appendNew _, fun k => ?_, fun k hk => ?_,
      fun _ _ => by simp [hrun, Ne.symm hk'], fun k hk => ?_⟩
    · rw [hkeys, hrun]
      simp [Ne.symm hk']
    · rw [hkeys, pending_cons_register hreq hs]
      by_cases e : k = k'
      · simp [e, str_mem_appendNew]
      · rw [mem_appendNew_of_ne (by simpa using e), inv.pending k]
        simp [e]
    · rw [registered_cons_register hreq hs, hrun]
      by_cases e : k = k'
      · simp [e]
      · simpa [e, hk] using inv.recorded k hk
    · rw [approvedSince_cons_register hreq hs, registeredApproved_cons_register hreq hs, hrun]
      by_cases e : k = k'
      · simp [e]
      · simpa [e, hk] using inv.approved k hk

/-- An approval keeps the invariant. -/
theorem ReviewInv.approvePublicKey_step (inv : ReviewInv cs) (req : Request) :
    ReviewInv (.approvePublicKey req :: cs) := by
  rcases inv.approve_cases req with ⟨r, h, hs⟩ | ⟨k', kvs, hreq, hk', hb, h⟩
  · exact inv.of_unchanged h hs
  · -- the record is approved, then the key is erased from the list
    have hs : (Call.approvePublicKey req).Succeeds cs := by
      simp only [Call.Succeeds, Call.step, Call.handle, h]
      exact succeeded_wrapResponse (by simp)
    have hrun : run (.approvePublicKey req :: cs)
        = ((run cs).put k' (.obj (setField "status" (.str "approved") kvs))).put keyNeedReview
            (.arr ((pendingKeys (run cs)).erase (.str k'))) :=
      congrArg Prod.fst h
    refine ⟨.inr (by simp [hrun]), by simpa [hrun] using inv.distinct.erase _, fun k => ?_,
      fun k hk => ?_, fun _ _ => by simp [hrun], fun k hk => ?_⟩
    · rw [hrun, pendingKeys_put_keyNeedReview, inv.distinct.mem_erase_str, inv.pending k,
        pending_cons_approve hreq hs]
      simp [and_comm]
    · rw [registered_cons_approve hs, hrun]
      by_cases e : k = k'
      · subst e
        simpa [hk, hb] using (inv.recorded k hk).1
      · simpa [e, hk] using inv.recorded k hk
    · rw [approvedSince_cons_approve hreq hs, registeredApproved_cons_approve hs, hrun]
      by_cases e : k = k'
      · subst e
        simp [hk, Approved, getItem_setItem_self (setItem_eq_ok.2 ⟨kvs, rfl, rfl⟩)]
      · simpa [e, hk] using inv.approved k hk

end Step

/-- **The review invariant**: every run of `register_pubkey` and `approve_public_key`
requests, none of which registers the key `KEY_NEED_REVIEW`, satisfies `ReviewInv`. -/
theorem reviewInv_run (cs : List Call) (hreg : ∀ c ∈ cs, c.IsRegistry)
    (hknr : ∀ c ∈ cs, ¬ c.Registers keyNeedReview fun _ => True) : ReviewInv cs :=
  run_invariant ReviewInv (fun c => c.IsRegistry ∧ ¬ c.Registers keyNeedReview fun _ => True)
    reviewInv_nil
    (fun c _ hc inv => match c, hc with
      | .registerPubkey _, ⟨_, hk⟩ => inv.registerPubkey_step hk
      | .approvePublicKey req, _ => inv.approvePublicKey_step req)
    cs fun c hc => ⟨hreg c hc, hknr c hc⟩

/-! ### The pending-review list -/

/-- Every `register_pubkey` request that reaches the ledger names a string key other
than `KEY_NEED_REVIEW`. -/
def Call.NamesUserKey : Call → Prop
  | .registerPubkey req => ∀ record p, RegisterRequest req record p → ∃ k, p = .str k ∧ k ≠ keyNeedReview
  | _ => True

theorem Call.NamesUserKey.not_registers {c : Call} (h : c.NamesUserKey) :
    ¬ c.Registers keyNeedReview fun _ => True := by
  cases c with
  | registerPubkey req =>
    rintro ⟨record, hreq, -⟩
    obtain ⟨k, hk, hne⟩ := h record _ hreq
    exact hne (JSON.str.inj hk).symm
  | _ => exact id

/-- When every registration names a string key, the pending-review list holds strings. -/
theorem pendingKeys_str : ∀ cs : List Call, (∀ c ∈ cs, c.IsRegistry) → (∀ c ∈ cs, c.NamesUserKey) →
    ∀ e ∈ pendingKeys (run cs), ∃ k, e = .str k
  | [], _, _ => by simp [pendingKeys]
  | c :: cs, hreg, hkeys => by
    have hreg' := fun c' hc' => hreg c' (List.mem_cons_of_mem c hc')
    have hkeys' := fun c' hc' => hkeys c' (List.mem_cons_of_mem c hc')
    have ih := pendingKeys_str cs hreg' hkeys'
    have inv := reviewInv_run cs hreg' fun c' hc' => (hkeys' c' hc').not_registers
    have hc := hkeys c (List.mem_cons_self c cs)
    cases c with
    | registerPubkey req =>
      rcases inv.register_cases req hc.not_registers with
        ⟨r, h, -⟩ | ⟨record, p, hreq, hp, -⟩ | ⟨record, k', -, hk', h⟩
      · simpa [Call.step, Call.handle, h] using ih
      · obtain ⟨k, rfl, -⟩ := hc record p hreq
        exact absurd rfl (hp k)
      · simp only [run_cons, Call.step, Call.handle, h, pendingKeys_put_of_ne _ hk',
          pendingKeys_put_keyNeedReview]
        intro e he
        exact (mem_appendNew he).elim (ih e) fun he => ⟨k', he⟩
    | approvePublicKey req =>
      rcases inv.approve_cases req with ⟨r, h, -⟩ | ⟨k', kvs, -, -, -, h⟩
      · simpa [Call.step, Call.handle, h] using ih
      · simp only [run_cons, Call.step, Call.handle, h, pendingKeys_put_keyNeedReview]
        exact fun e he => ih e (List.mem_of_mem_erase he)
    | createWill _ | witnessSign _ => exact (hreg _ (List.mem_cons_self _ cs)).elim

/-- A request that registers `k` and is answered with data registers it. -/
theorem registered_cons_of_step {c : Call} {cs : List Call} {k : String}
    (hc : c.Registers k fun _ => True) {d : JSON} (hd : d ≠ .null) (h : (c.step (run cs)).2 = .ok (wrapResponse d 200)) :
    Registered k (c :: cs) :=
  (since_cons_of_succeeds (by rw [Call.Succeeds, h]; exact succeeded_wrapResponse hd)).2
    ⟨not_false, .inl hc⟩

/-- Registering `KEY_NEED_REVIEW` stores its record over the pending-review list;
`list_need_approve` then reads the record's keys as public keys, and raises. -/
theorem register_review_key_replaces_list :
    let c := Call.registerPubkey ⟨"POST", some (.obj [("public_key", .str keyNeedReview)]), []⟩
    (c.step Store.empty).2 = .ok (wrapResponse processing 200) ∧
    run [c] keyNeedReview = some (.obj [("public_key", .str keyNeedReview), ("status", .str "need_review")]) ∧
    (listNeedApprove Store.client ⟨"GET", none, []⟩ (run [c])).2 = .error .keyNotFound :=
  ⟨rfl, by decide, rfl⟩

/-- **The pending-review list**, when every registration names a string key other than
`KEY_NEED_REVIEW`: after the first registration it is a list without duplicates of
keys that have records, a key is on it exactly while it awaits review, and
`list_need_approve` answers with their records, in order. -/
theorem pending_list_integrity (cs : List Call) (hreg : ∀ c ∈ cs, c.IsRegistry)
    (hkeys : ∀ c ∈ cs, c.NamesUserKey) {k₀ : String} (hfirst : Registered k₀ cs) :
    ∃ L, run cs keyNeedReview = some (.arr L) ∧ L.Nodup ∧
      (∀ e ∈ L, ∃ k, e = .str k ∧ k ≠ keyNeedReview ∧ run cs k ≠ none) ∧
      (∀ k, .str k ∈ L ↔ Pending k cs) ∧
      ∀ req : Request, req.method = "GET" → ∃ users,
        listNeedApprove Store.client req (run cs) = (run cs, .ok (wrapResponse (.arr users) 200)) ∧
        List.Forall₂ (fun e u => ∃ k, e = .str k ∧ run cs k = some u) L users := by
  have hknr : ∀ c ∈ cs, ¬ c.Registers keyNeedReview fun _ => True := fun c hc => (hkeys c hc).not_registers
  have inv := reviewInv_run cs hreg hknr
  have hL := inv.shape.resolve_left (inv.listed k₀ hfirst)
  have hrec : ∀ e ∈ pendingKeys (run cs), ∃ k, e = .str k ∧ k ≠ keyNeedReview ∧ run cs k ≠ none := by
    intro e he
    obtain ⟨k, rfl⟩ := pendingKeys_str cs hreg hkeys e he
    have hk : Registered k cs := Since.ever ((inv.pending k).1 he)
    have hne : k ≠ keyNeedReview := fun e => not_since_of_forall hknr (e ▸ hk)
    exact ⟨k, rfl, hne, (inv.recorded k hne).2 hk⟩
  refine ⟨_, hL, inv.distinct.nodup fun e he => (hrec e he).imp fun _ h => h.1, hrec, fun k => inv.pending k,
    fun req hm => ?_⟩
  obtain ⟨users, hrun, hall⟩ :=
    getValues_run (run cs) _ fun e he => (hrec e he).imp fun _ h => ⟨h.1, h.2.2⟩
  exact ⟨users, by simp [listNeedApprove, hm, Store.lookup_of_some hL, pyIter, hrun], hall⟩

/-- `alice`'s registration, from the empty ledger. -/
theorem alice_registered :
    let c := Call.registerPubkey ⟨"POST", some (.obj [("public_key", .str "alice")]), []⟩
    c.NamesUserKey ∧ Registered "alice" [c] := by
  intro c
  have hreq : RegisterRequest ⟨"POST", some (.obj [("public_key", .str "alice")]), []⟩
      (.obj [("public_key", .str "alice"), ("status", .str "need_review")]) (.str "alice") :=
    ⟨rfl, ⟨_, rfl, rfl, rfl⟩, rfl⟩
  exact ⟨fun _ _ h => ⟨"alice", (h.unique hreq).2, by decide⟩,
    registered_cons_of_step ⟨_, hreq, trivial⟩ (show processing ≠ .null by simp [processing]) rfl⟩

theorem pending_list_integrity_alice :
    let c := Call.registerPubkey ⟨"POST", some (.obj [("public_key", .str "alice")]), []⟩
    (∀ c' ∈ [c], c'.IsRegistry) ∧ (∀ c' ∈ [c], c'.NamesUserKey) ∧ Registered "alice" [c] ∧
    ∃ L, run [c] keyNeedReview = some (.arr L) ∧ L.Nodup ∧
      (∀ e ∈ L, ∃ k, e = .str k ∧ k ≠ keyNeedReview ∧ run [c] k ≠ none) ∧
      (∀ k, .str k ∈ L ↔ Pending k [c]) ∧
      ∀ req : Request, req.method = "GET" → ∃ users,
        listNeedApprove Store.client req (run [c]) = (run [c], .ok (wrapResponse (.arr users) 200)) ∧
        List.Forall₂ (fun e u => ∃ k, e = .str k ∧ run [c] k = some u) L users := by
  intro c
  have hreg : ∀ c' ∈ [c], c'.IsRegistry := by simp [c, Call.IsRegistry]
  have hkeys : ∀ c' ∈ [c], c'.NamesUserKey := by simpa using alice_registered.1
  exact ⟨hreg, hkeys, alice_registered.2, pending_list_integrity [c] hreg hkeys alice_registered.2⟩

/-! ### Approval -/

/-- A registration whose body says `approved` stores an approved record with no
approval, and the key stays on the pending-review list. -/
theorem register_approved_status :
    let c := Call.registerPubkey
      ⟨"POST", some (.obj [("public_key", .str "alice"), ("status", .str "approved")]), []⟩
    (c.step Store.empty).2 = .ok (wrapResponse processing 200) ∧
    run [c] "alice" = some (.obj [("public_key", .str "alice"), ("status", .str "approved")]) ∧
    run [c] keyNeedReview = some (.arr [.str "alice"]) ∧ ¬ ApprovedSince "alice" [c] :=
  ⟨rfl, by decide, by decide, by simp [ApprovedSince, since_cons]⟩

/-- **Approval**, when no registration names `KEY_NEED_REVIEW`: the record of a
registered key is approved exactly when the key was approved since its last
registration, or that registration carried the status `approved` itself; and the key is
off the pending-review list exactly when it was approved since its last registration. -/
theorem approval_gating (cs : List Call) (hreg : ∀ c ∈ cs, c.IsRegistry)
    (hknr : ∀ c ∈ cs, ¬ c.Registers keyNeedReview fun _ => True) {k : String} (hk : Registered k cs) :
    ((∃ v, run cs k = some v ∧ Approved v) ↔ ApprovedSince k cs ∨ RegisteredApproved k cs) ∧
    (.str k ∉ pendingKeys (run cs) ↔ ApprovedSince k cs) := by
  have inv := reviewInv_run cs hreg hknr
  have hne : k ≠ keyNeedReview := fun e => not_since_of_forall hknr (e ▸ hk)
  refine ⟨inv.approved k hne, ?_⟩
  rw [inv.pending k]
  exact not_since_iff_since (fun _ => Call.not_approves_of_registers) hk

theorem approval_gating_alice :
    let c := Call.registerPubkey ⟨"POST", some (.obj [("public_key", .str "alice")]), []⟩
    (∀ c' ∈ [c], c'.IsRegistry) ∧ (∀ c' ∈ [c], ¬ c'.Registers keyNeedReview fun _ => True) ∧
    Registered "alice" [c] ∧
    ((∃ v, run [c] "alice" = some v ∧ Approved v) ↔
      ApprovedSince "alice" [c] ∨ RegisteredApproved "alice" [c]) ∧
    (.str "alice" ∉ pendingKeys (run [c]) ↔ ApprovedSince "alice" [c]) := by
  intro c
  have hreg : ∀ c' ∈ [c], c'.IsRegistry := by simp [c, Call.IsRegistry]
  have hknr : ∀ c' ∈ [c], ¬ c'.Registers keyNeedReview fun _ => True := by
    simpa using alice_registered.1.not_registers
  exact ⟨hreg, hknr, alice_registered.2, approval_gating [c] hreg hknr alice_registered.2⟩

end IntkeyWill
