import IntkeyWill.Store

/-!
# The registry: `register_pubkey`, `show_user`, `list_need_approve`, `approve_public_key`

Public keys are registered with a profile, wait on the pending-review list stored
under `KEY_NEED_REVIEW`, and are approved by an administrator.  A key's record is
stored under the key itself, in the same flat namespace as the wills.

## Main definitions

* `registerPubkey`, `showUser`, `listNeedApprove`, `approvePublicKey` — the handlers,
  over any client.
* `pendingAfter` — the pending list `register_pubkey` writes back.

## Main results

* `registerPubkey_cases`, `approvePublicKey_cases` — everything one call can do to the
  ledger with immediate commit: the paths that write, with their guards, and that every
  other path writes nothing.
-/

namespace IntkeyWill

open JSON

/-! ### The steps between client calls -/

/-- `if 'status' not in body: body['status'] = 'need_review'`. -/
def withDefaultStatus (body : JSON) : Except PyErr JSON := do
  if !(← pyIn (.str "status") body) then setItem body "status" (.str "need_review")
  else pure body

/-- The pending list `register_pubkey` writes back, from the one it read (`None` when
there was none): the key appended unless it is already on it. -/
def pendingAfter (listPending pubkey : JSON) : Except PyErr JSON := do
  let listPending := if listPending matches .null then .arr [] else listPending
  if !(← pyIn pubkey listPending) then pyAppend listPending pubkey
  else pure listPending

/-- `if pubkey in pending_list: pending_list.remove(pubkey)`. -/
def removeIfPresent (pendingList pubkey : JSON) : Except PyErr JSON := do
  if ← pyIn pubkey pendingList then pyRemove pendingList pubkey
  else pure pendingList

section Handlers

variable {σ : Type} (c : Client σ)

/-- The "Save to pending list" block of `register_pubkey`: read the list, writing an
empty one first when there is none, and write it back with `pubkey` on it. -/
def savePending (pubkey : JSON) : Py σ Unit := do
  let listPending ← Py.catchClient (c.getValue (.str keyNeedReview))
    (do c.set (.str keyNeedReview) (.arr []); pure .null)
  let listPending ← pendingAfter listPending pubkey
  c.set (.str keyNeedReview) listPending

/-- `register_pubkey`: add the key to the pending-review list unless it is on it, then
store the body as the key's record, with status `need_review` unless it has one. -/
def registerPubkey (req : Request) : Py σ Response := do
  if req.method ≠ "POST" then return wrapResponse .null 200
  let body ← req.json
  if !(← pyIn (.str "public_key") body) then
    return wrapResponse (failure "Missing public_key") 400
  let body ← withDefaultStatus body
  let pubkey ← getItem body "public_key"
  savePending c pubkey
  -- Save user
  c.set pubkey body
  return wrapResponse processing 200

/-- `show_user`: the record of the key in the query. -/
def showUser (req : Request) : Py σ Response := do
  if req.method ≠ "GET" then return wrapResponse .null 200
  let some pubkey := req.queryGet "public_key"
    | return wrapResponse (failure "Missing public_key") 400
  let body ← c.getValue (.str pubkey)
  return wrapResponse body 200

/-- The loop of `list_need_approve`: the record of each key, in order. -/
def getValues : List JSON → Py σ (List JSON)
  | [] => pure []
  | pubkey :: pubkeys => do
    let user ← c.getValue pubkey
    let users ← getValues pubkeys
    return user :: users

/-- `list_need_approve`: the records of the keys on the pending-review list. -/
def listNeedApprove (req : Request) : Py σ Response := do
  if req.method ≠ "GET" then return wrapResponse .null 200
  let pendingList ← c.getValue (.str keyNeedReview)
  let users ← getValues c (← pyIter pendingList)
  return wrapResponse (.arr users) 200

/-- Lines 660–668 of `approve_public_key`, once it has the key: mark its record
`approved`, then take the key off the pending-review list; the record as approved. -/
def approveKey (pubkey : String) : Py σ JSON := do
  let body ← c.getValue (.str pubkey)
  let body ← setItem body "status" (.str "approved")
  c.set (.str pubkey) body
  let pendingList ← c.getValue (.str keyNeedReview)
  let pendingList ← removeIfPresent pendingList (.str pubkey)
  c.set (.str keyNeedReview) pendingList
  return body

/-- `approve_public_key`: approve the key in the query, as `approveKey` does. -/
def approvePublicKey (req : Request) : Py σ Response := do
  if req.method ≠ "GET" then return wrapResponse .null 200
  let some pubkey := req.queryGet "public_key"
    | return wrapResponse (failure "Missing public_key") 400
  let body ← approveKey c pubkey
  return wrapResponse body 200

end Handlers

/-! ### On the ledger with immediate commit -/

/-- The value `register_pubkey` starts the pending list from: the stored one, or `None`. -/
def pendingOf (s : Store) : JSON := (s keyNeedReview).getD .null

theorem pendingAfter_null (pubkey : JSON) : pendingAfter .null pubkey = .ok (.arr [pubkey]) := by
  simp [pendingAfter, pyIn, pyAppend]

/-- On a list, `register_pubkey`'s pending list is the set insertion of the key. -/
theorem pendingAfter_arr (L : List JSON) (pubkey : JSON) :
    pendingAfter (.arr L) pubkey = .ok (.arr (appendNew L pubkey)) := by
  by_cases h : L.any (pyEq · pubkey) <;> simp [pendingAfter, pyIn_arr, appendNew, h, pyAppend]

/-- On a list, `approve_public_key` erases the key. -/
theorem removeIfPresent_str (L : List JSON) (k : String) :
    removeIfPresent (.arr L) (.str k) = .ok (.arr (L.erase (.str k))) := by
  by_cases h : JSON.str k ∈ L
  · simp [removeIfPresent, h, pyRemove, removeFirst_str k L h]
  · simp [removeIfPresent, h, List.erase_of_not_mem h]

theorem pendingAfter_of_ne_null {l : JSON} (hn : l ≠ .null) (pubkey : JSON) :
    pendingAfter l pubkey = (pyIn pubkey l >>= fun b => if !b then pyAppend l pubkey else pure l) := by
  cases l <;> first | exact absurd rfl hn | rfl

/-- On anything but `None` or a list, `register_pubkey` writes back what it read, and
only when the key is in it. -/
theorem pendingAfter_of_not_arr {l X pubkey : JSON} (hn : l ≠ .null) (ha : ∀ L, l ≠ .arr L)
    (h : pendingAfter l pubkey = .ok X) : X = l ∧ pyIn pubkey l = .ok true := by
  rw [pendingAfter_of_ne_null hn] at h
  cases hin : pyIn pubkey l with
  | error e => simp [hin] at h
  | ok b => cases b <;> simp_all [pyAppend_of_not_arr ha]

/-- On anything but a list, `approve_public_key` writes back what it read, and only when
the key is not in it. -/
theorem removeIfPresent_of_not_arr {l X pubkey : JSON} (ha : ∀ L, l ≠ .arr L)
    (h : removeIfPresent l pubkey = .ok X) : X = l ∧ pyIn pubkey l = .ok false := by
  unfold removeIfPresent at h
  cases hin : pyIn pubkey l with
  | error e => simp [hin] at h
  | ok b => cases b <;> simp_all [pyRemove_of_not_arr ha]

/-- Registering a key `==` to itself again writes back the pending list it read. -/
theorem pendingAfter_idem {l X pubkey : JSON} (hp : pyEq pubkey pubkey = true)
    (h : pendingAfter l pubkey = .ok X) : pendingAfter X pubkey = .ok X := by
  by_cases hn : l = .null
  · subst hn
    rw [pendingAfter_null] at h
    cases h
    simp [pendingAfter_arr, appendNew, hp]
  by_cases ha : ∃ L, l = .arr L
  · obtain ⟨L, rfl⟩ := ha
    rw [pendingAfter_arr] at h
    cases h
    rw [pendingAfter_arr, appendNew_idem hp]
  · obtain ⟨rfl, -⟩ := pendingAfter_of_not_arr hn (fun L e => ha ⟨L, e⟩) h
    exact h

/-- Approving a key again writes back the pending list it read, when the first approval
read a list without two `==` elements. -/
theorem removeIfPresent_idem {l X : JSON} {k : String} (hl : DistinctIfList l)
    (h : removeIfPresent l (.str k) = .ok X) : removeIfPresent X (.str k) = .ok X := by
  by_cases ha : ∃ L, l = .arr L
  · obtain ⟨L, rfl⟩ := ha
    rw [removeIfPresent_str] at h
    cases h
    rw [removeIfPresent_str, List.erase_of_not_mem fun hm => (((hl L rfl).mem_erase_str k _).1 hm).1 rfl]
  · obtain ⟨rfl, -⟩ := removeIfPresent_of_not_arr (fun L e => ha ⟨L, e⟩) h
    exact h

theorem distinctIfList_pendingAfter {l X pubkey : JSON} (hl : DistinctIfList l)
    (h : pendingAfter l pubkey = .ok X) : DistinctIfList X := by
  by_cases hn : l = .null
  · subst hn
    rw [pendingAfter_null] at h
    cases h
    rintro _ ⟨⟩
    exact List.pairwise_singleton _ _
  by_cases ha : ∃ L, l = .arr L
  · obtain ⟨L, rfl⟩ := ha
    rw [pendingAfter_arr] at h
    cases h
    rintro _ ⟨⟩
    exact (hl L rfl).appendNew _
  · obtain ⟨rfl, -⟩ := pendingAfter_of_not_arr hn (fun L e => ha ⟨L, e⟩) h
    exact hl

theorem distinctIfList_removeIfPresent {l X : JSON} {k : String} (hl : DistinctIfList l)
    (h : removeIfPresent l (.str k) = .ok X) : DistinctIfList X := by
  by_cases ha : ∃ L, l = .arr L
  · obtain ⟨L, rfl⟩ := ha
    rw [removeIfPresent_str] at h
    cases h
    rintro _ ⟨⟩
    exact (hl L rfl).erase _
  · obtain ⟨rfl, -⟩ := removeIfPresent_of_not_arr (fun L e => ha ⟨L, e⟩) h
    exact hl

/-- `savePending` over a client that reads the ledger `view x`: with no pending list it
writes an empty one, then the key's. -/
theorem savePending_reads {σ : Type} {c : Client σ} {view : σ → Store}
    {write : σ → String → JSON → σ} (hc : ReadsFrom c view write) (pubkey : JSON) (x : σ) :
    savePending c pubkey x = match view x keyNeedReview with
      | none => c.set (.str keyNeedReview) (.arr [pubkey]) (write x keyNeedReview (.arr []))
      | some l => Py.andThen (x, pendingAfter l pubkey) (c.set (.str keyNeedReview)) := by
  cases h : view x keyNeedReview with
  | none =>
    simp [savePending, Py.catchClient, hc.getValue_str, hc.set_str, Store.lookup_of_none h,
      pendingAfter_null]
  | some v => simp [savePending, Py.catchClient, hc.getValue_str, Store.lookup_of_some h]

theorem savePending_run (pubkey : JSON) (s : Store) :
    savePending Store.client pubkey s
      = Py.andThen (s, pendingAfter (pendingOf s) pubkey) (Store.client.set (.str keyNeedReview)) := by
  simp only [savePending_reads Store.readsFrom]
  cases h : s keyNeedReview <;> simp [pendingOf, h, pendingAfter_null]

/-- `list_need_approve`'s loop on the ledger: the record of each key, when every key
has one. -/
theorem getValues_run (s : Store) : ∀ L : List JSON, (∀ e ∈ L, ∃ k, e = .str k ∧ s k ≠ none) →
    ∃ users, getValues Store.client L s = (s, .ok users) ∧
      List.Forall₂ (fun e u => ∃ k, e = .str k ∧ s k = some u) L users
  | [], _ => ⟨[], rfl, .nil⟩
  | e :: L, h => by
    obtain ⟨k, rfl, hk⟩ := h e (List.mem_cons_self _ _)
    obtain ⟨u, hu⟩ := Option.ne_none_iff_exists'.1 hk
    obtain ⟨users, hrun, hall⟩ := getValues_run s L fun e he => h e (List.mem_cons_of_mem _ he)
    exact ⟨u :: users, by simp [getValues, Store.lookup_of_some hu, hrun], .cons ⟨k, rfl, hu⟩ hall⟩

/-- A `register_pubkey` request that gets to the ledger: a `POST` whose JSON body has a
`public_key`; `record` is the body with its default status and `pubkey` its key. -/
structure RegisterRequest (req : Request) (record pubkey : JSON) : Prop where
  method : req.method = "POST"
  body : ∃ b, req.json = .ok b ∧ pyIn (.str "public_key") b = .ok true ∧
    withDefaultStatus b = .ok record
  key : getItem record "public_key" = .ok pubkey

/-- A request determines the record and the key it registers. -/
theorem RegisterRequest.unique {req : Request} {r₁ r₂ p₁ p₂ : JSON}
    (h₁ : RegisterRequest req r₁ p₁) (h₂ : RegisterRequest req r₂ p₂) : r₁ = r₂ ∧ p₁ = p₂ := by
  obtain ⟨-, ⟨b₁, hb₁, -, hr₁⟩, hp₁⟩ := h₁
  obtain ⟨-, ⟨b₂, hb₂, -, hr₂⟩, hp₂⟩ := h₂
  obtain rfl : b₁ = b₂ := by simpa [hb₁] using hb₂
  obtain rfl : r₁ = r₂ := by simpa [hr₁] using hr₂
  exact ⟨rfl, by simpa [hp₁] using hp₂⟩

/-- What `register_pubkey` does before its first client call, over every client: a
request that does not get to the ledger is answered without touching it, and one that
does goes on to `savePending` and the record. -/
theorem registerPubkey_front (req : Request) :
    (∃ r, ¬ Succeeded r ∧ (∀ record pubkey, ¬ RegisterRequest req record pubkey) ∧
      ∀ {σ : Type} (c : Client σ) (x : σ), registerPubkey c req x = (x, r)) ∨
    ∃ record pubkey, RegisterRequest req record pubkey ∧ ∀ {σ : Type} (c : Client σ) (x : σ),
      registerPubkey c req x = Py.andThen (savePending c pubkey x)
        fun _ => (do c.set pubkey record; pure (wrapResponse processing 200)) := by
  by_cases hreq : ∃ record pubkey, RegisterRequest req record pubkey
  · obtain ⟨record, pubkey, hm, ⟨b, hb, hk, hr⟩, hp⟩ := hreq
    refine .inr ⟨record, pubkey, ⟨hm, ⟨b, hb, hk, hr⟩, hp⟩, fun c x => ?_⟩
    simp only [registerPubkey, ne_eq, hm, not_true_eq_false, ↓reduceIte, hb, Bool.not_eq_eq_eq_not,
      Bool.not_true, Py.run_bind, Py.run_pure, Py.andThen_ok, Py.run_lift, hk, hr, Bool.true_eq_false, hp]
  push_neg at hreq
  refine .inl ?_
  by_cases hm : req.method = "POST"
  swap
  · refine ⟨_, not_succeeded_null, hreq, fun c x => ?_⟩
    simp only [registerPubkey, ne_eq, hm, not_false_eq_true, ↓reduceIte, Py.run_pure]
  -- every other request that does not get to the ledger fails on its body
  cases hb : req.json with
  | error e =>
    refine ⟨_, not_succeeded_error e, hreq, fun c x => ?_⟩
    simp only [registerPubkey, hm, ne_eq, not_true_eq_false, ↓reduceIte, hb, Py.run_bind, Py.run_pure,
      Py.andThen_ok, Py.run_lift, Py.andThen_error]
  | ok b =>
  cases hk : pyIn (.str "public_key") b with
  | error e =>
    refine ⟨_, not_succeeded_error e, hreq, fun c x => ?_⟩
    simp only [registerPubkey, hm, ne_eq, not_true_eq_false, ↓reduceIte, hb, Py.run_bind, Py.run_pure,
      Py.andThen_ok, Py.run_lift, hk, Py.andThen_error]
  | ok inb =>
  cases inb
  · refine ⟨_, not_succeeded_400 (failure "Missing public_key"), hreq, fun c x => ?_⟩
    simp only [registerPubkey, hm, ne_eq, not_true_eq_false, ↓reduceIte, hb, Bool.not_eq_eq_eq_not,
      Bool.not_true, Py.run_bind, Py.run_pure, Py.andThen_ok, Py.run_lift, hk]
  cases hr : withDefaultStatus b with
  | error e =>
    refine ⟨_, not_succeeded_error e, hreq, fun c x => ?_⟩
    simp only [registerPubkey, hm, ne_eq, not_true_eq_false, ↓reduceIte, hb, Bool.not_eq_eq_eq_not,
      Bool.not_true, Py.run_bind, Py.run_pure, Py.andThen_ok, Py.run_lift, hk, hr, Bool.true_eq_false,
      Py.andThen_error]
  | ok record =>
  cases hp : getItem record "public_key" with
  | error e =>
    refine ⟨_, not_succeeded_error e, hreq, fun c x => ?_⟩
    simp only [registerPubkey, hm, ne_eq, not_true_eq_false, ↓reduceIte, hb, Bool.not_eq_eq_eq_not,
      Bool.not_true, Py.run_bind, Py.run_pure, Py.andThen_ok, Py.run_lift, hk, hr, Bool.true_eq_false, hp,
      Py.andThen_error]
  | ok pubkey => exact absurd ⟨hm, ⟨b, hb, hk, hr⟩, hp⟩ (hreq record pubkey)

theorem registerPubkey_cases (req : Request) (s : Store) :
    (∃ r, registerPubkey Store.client req s = (s, r) ∧ ¬ Succeeded r) ∨
    (∃ record pubkey L, RegisterRequest req record pubkey ∧
      pendingAfter (pendingOf s) pubkey = .ok L ∧ (∀ k, pubkey ≠ .str k) ∧
      registerPubkey Store.client req s = (s.put keyNeedReview L, .error .invalidKey)) ∨
    (∃ record k L, RegisterRequest req record (.str k) ∧
      pendingAfter (pendingOf s) (.str k) = .ok L ∧
      registerPubkey Store.client req s
        = ((s.put keyNeedReview L).put k record, .ok (wrapResponse processing 200))) := by
  rcases registerPubkey_front req with ⟨r, hr, -, h⟩ | ⟨record, pubkey, hreq, h⟩
  · exact .inl ⟨r, h _ s, hr⟩
  rw [h, savePending_run]
  cases hL : pendingAfter (pendingOf s) pubkey with
  | error e => exact .inl ⟨_, rfl, not_succeeded_error e⟩
  | ok L =>
  cases pubkey with
  | str k => exact .inr (.inr ⟨record, k, L, hreq, hL, rfl⟩)
  | _ => exact .inr (.inl ⟨record, _, L, hreq, hL, by simp, rfl⟩)

/-- A registration of a string key, when the pending list takes it. -/
theorem registerPubkey_of_request {req : Request} {record : JSON} {k : String} {s : Store} {L : JSON}
    (hreq : RegisterRequest req record (.str k)) (hL : pendingAfter (pendingOf s) (.str k) = .ok L) :
    registerPubkey Store.client req s
      = ((s.put keyNeedReview L).put k record, .ok (wrapResponse processing 200)) := by
  rcases registerPubkey_front req with ⟨r, -, hno, -⟩ | ⟨record', pubkey, hreq', h⟩
  · exact absurd hreq (hno _ _)
  obtain ⟨rfl, rfl⟩ := hreq.unique hreq'
  rw [h, savePending_run, hL]
  rfl

/-- An `approve_public_key` request that gets to the ledger: a `GET` naming a key. -/
structure ApproveRequest (req : Request) (pubkey : String) : Prop where
  method : req.method = "GET"
  key : req.queryGet "public_key" = some pubkey

theorem ApproveRequest.unique {req : Request} {k₁ k₂ : String}
    (h₁ : ApproveRequest req k₁) (h₂ : ApproveRequest req k₂) : k₁ = k₂ := by
  simpa [h₁.key] using h₂.key

/-- `approveKey` over a client that reads the ledger `view x`. -/
theorem approveKey_reads {σ : Type} {c : Client σ} {view : σ → Store}
    {write : σ → String → JSON → σ} (hc : ReadsFrom c view write) (k : String) (x : σ) :
    approveKey c k x = match view x k with
      | none => (x, .error .keyNotFound)
      | some b => match setItem b "status" (.str "approved") with
        | .error e => (x, .error e)
        | .ok body => match view (write x k body) keyNeedReview with
          | none => (write x k body, .error .keyNotFound)
          | some l => match removeIfPresent l (.str k) with
            | .error e => (write x k body, .error e)
            | .ok L => (write (write x k body) keyNeedReview L, .ok body) := by
  cases hb : view x k with
  | none => simp [approveKey, hc.getValue_str, Store.lookup_of_none hb]
  | some b =>
  cases hs : setItem b "status" (.str "approved") with
  | error e => simp [approveKey, hc.getValue_str, Store.lookup_of_some hb, hs]
  | ok body =>
  cases hl : view (write x k body) keyNeedReview with
  | none =>
    simp [approveKey, hc.getValue_str, hc.set_str, Store.lookup_of_some hb, hs, Store.lookup_of_none hl, hl]
  | some l =>
  cases hL : removeIfPresent l (.str k) <;>
    simp [approveKey, hc.getValue_str, hc.set_str, Store.lookup_of_some hb, hs, Store.lookup_of_some hl, hl, hL]

/-- What `approve_public_key` does before its first client call, over every client. -/
theorem approvePublicKey_front (req : Request) :
    (∃ r, ¬ Succeeded r ∧ (∀ k, ¬ ApproveRequest req k) ∧
      ∀ {σ : Type} (c : Client σ) (x : σ), approvePublicKey c req x = (x, r)) ∨
    ∃ k, ApproveRequest req k ∧ ∀ {σ : Type} (c : Client σ) (x : σ),
      approvePublicKey c req x = Py.andThen (approveKey c k x) fun body => pure (wrapResponse body 200) := by
  by_cases hreq : ∃ k, ApproveRequest req k
  · obtain ⟨k, hm, hq⟩ := hreq
    exact .inr ⟨k, ⟨hm, hq⟩, fun c x => by simp [approvePublicKey, hm, hq]⟩
  push_neg at hreq
  refine .inl ?_
  by_cases hm : req.method = "GET"
  swap
  · exact ⟨_, not_succeeded_null, hreq, fun c x => by simp [approvePublicKey, hm]⟩
  cases hq : req.queryGet "public_key" with
  | none =>
    exact ⟨_, not_succeeded_400 (failure "Missing public_key"), hreq,
      fun c x => by simp [approvePublicKey, hm, hq]⟩
  | some k => exact absurd ⟨hm, hq⟩ (hreq k)

theorem approvePublicKey_cases (req : Request) (s : Store) :
    (∃ r, approvePublicKey Store.client req s = (s, r) ∧ ¬ Succeeded r) ∨
    (∃ k body e, ApproveRequest req k ∧
      (∃ b, s k = some b ∧ setItem b "status" (.str "approved") = .ok body) ∧
      ((s.put k body).lookup keyNeedReview >>= (removeIfPresent · (.str k))) = .error e ∧
      approvePublicKey Store.client req s = (s.put k body, .error e)) ∨
    (∃ k body l L, ApproveRequest req k ∧
      (∃ b, s k = some b ∧ setItem b "status" (.str "approved") = .ok body) ∧
      (s.put k body) keyNeedReview = some l ∧ removeIfPresent l (.str k) = .ok L ∧
      approvePublicKey Store.client req s
        = ((s.put k body).put keyNeedReview L, .ok (wrapResponse body 200))) := by
  rcases approvePublicKey_front req with ⟨r, hr, -, h⟩ | ⟨k, hreq, h⟩
  · exact .inl ⟨r, h _ s, hr⟩
  simp only [h, approveKey_reads Store.readsFrom]
  cases hb : s k with
  | none => exact .inl ⟨_, rfl, not_succeeded_error .keyNotFound⟩
  | some b =>
  dsimp only
  cases hs : setItem b "status" (.str "approved") with
  | error e => exact .inl ⟨_, rfl, not_succeeded_error e⟩
  | ok body =>
  have hrec : ∃ b, s k = some b ∧ setItem b "status" (.str "approved") = .ok body := ⟨b, hb, hs⟩
  dsimp only
  cases hl : (s.put k body) keyNeedReview with
  | none => exact .inr (.inl ⟨k, body, .keyNotFound, hreq, hrec, by simp [Store.lookup_of_none hl], rfl⟩)
  | some l =>
  dsimp only
  cases hL : removeIfPresent l (.str k) with
  | error e => exact .inr (.inl ⟨k, body, e, hreq, hrec, by simp [Store.lookup_of_some hl, hL], rfl⟩)
  | ok L => exact .inr (.inr ⟨k, body, l, L, hreq, hrec, hl, hL, rfl⟩)

end IntkeyWill
