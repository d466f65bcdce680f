import IntkeyWill.Registry

/-!
# The will ledger: `create_will`, `show_will`, `show_will_list`, `witness_sign`

A testator's will is stored under `WILL_` and the testator's key, with the list of its
witnesses; every witness has an index under `WILL_LIST_` and its key, the testators
whose wills name it.  `create_will` adds the testator to each witness's index and then
stores the body as the will; `witness_sign` marks the witness's entries `signed`,
counts the signatures, and marks the will `valid` when the count reaches the number of
witnesses.

## Main definitions

* `createWill`, `showWill`, `showWillList`, `witnessSign` — the handlers.
* `willListAfter`, `addToWillLists`, `saveWill` — the index update of `create_will`,
  its loop, and the part of the handler that writes.
* `signStep`, `signLoop`, `signBody` — the signing loop of `witness_sign` and the
  computation on the will around it.

## Main results

* `addToWillList_run`, `saveWill_run` — one pass of the witness loop, and the part of
  `create_will` that writes, on the ledger with immediate commit.
* `createWill_cases`, `witnessSign_cases` — everything one call can do to that ledger.
-/

namespace IntkeyWill

open JSON

/-! ### The steps between client calls -/

/-- `'witnesses' not in body or len(body['witnesses']) == 0`. -/
def noWitnesses (body : JSON) : Except PyErr Bool := do
  if !(← pyIn (.str "witnesses") body) then return true
  return (← pyLen (← getItem body "witnesses")) == 0

/-- The index `create_will` writes back for a witness whose index it read as
`willList`: `pubkey` appended, or nothing to write when `pubkey` is in it already. -/
def willListAfter (willList pubkey : JSON) : Except PyErr (Option JSON) := do
  if !(← pyIn pubkey willList) then return some (← pyAppend willList pubkey)
  return none

/-- `'status' in wn and wn["status"] == 'signed'`. -/
def isSigned (wn : JSON) : Except PyErr Bool := do
  if ← pyIn (.str "status") wn then return pyEq (← getItem wn "status") (.str "signed")
  return false

/-- One pass of the loop of `witness_sign` over an entry `wn`, with `found_witness` and
`sign_count` as it finds them: the entry afterwards and the two variables. -/
def signStep (witness : String) (wn : JSON) (found : Bool) (count : Nat) :
    Except PyErr (JSON × Bool × Nat) := do
  let count := if ← isSigned wn then count + 1 else count
  if pyEq (← getItem wn "public_key") (.str witness) then
    return (← setItem wn "status" (.str "signed"), true, count + 1)
  return (wn, found, count)

/-- The loop of `witness_sign` over the entries. -/
def signLoop (witness : String) : List JSON → Bool → Nat → Except PyErr (List JSON × Bool × Nat)
  | [], found, count => pure ([], found, count)
  | wn :: wns, found, count => do
    let (wn, found, count) ← signStep witness wn found count
    let (wns, found, count) ← signLoop witness wns found count
    return (wn :: wns, found, count)

/-- The container `for wn in witnesses` leaves: a list holds the entries as the loop
changed them; over a dict or a string the loop finishes only when it visited nothing. -/
def withItems : JSON → List JSON → JSON
  | .arr _, items => .arr items
  | witnesses, _ => witnesses

/-- Lines 834–872 of `witness_sign`, which only compute: the will with the witness's
entries signed, and marked `valid` when `sign_count` reaches the number of entries;
`none` when no entry names the witness. -/
def signBody (body : JSON) (witness : String) : Except PyErr (Option JSON) := do
  let witnesses ← getItem body "witnesses"
  let (items, foundWitness, signCount) ← signLoop witness (← pyIter witnesses) false 0
  -- the loop changed the entries of `body["witnesses"]` in place
  let body ← setItem body "witnesses" (withItems witnesses items)
  -- Not found witness
  if !foundWitness then return none
  -- All witnesses signed into will => VALID
  if signCount == (← pyLen (← getItem body "witnesses")) then
    return some (← setItem body "status" (.str "valid"))
  return some body

section Handlers

variable {σ : Type} (c : Client σ)

/-- One pass of the witness loop of `create_will`: add `pubkey` to the index of the
witness the entry `wn` names, unless it is on it. -/
def addToWillList (pubkey wn : JSON) : Py σ Unit := do
  let wnPubkey ← getItem wn "public_key"
  let key ← strAdd willListPrefix wnPubkey
  let willList ← Py.catchClient (c.getValue (.str key)) (pure (.arr []))
  if let some willList ← willListAfter willList pubkey then
    -- Save will list for user
    c.set (.str key) willList

/-- The witness loop of `create_will`. -/
def addToWillLists (pubkey : JSON) : List JSON → Py σ Unit
  | [] => pure ()
  | wn :: wns => do
    addToWillList c pubkey wn
    addToWillLists pubkey wns

/-- Lines 702–721 of `create_will`, once it has the body and the testator `pubkey`: a
will without witnesses is marked `valid`; otherwise the testator is added to every
witness's index; then the will is stored. -/
def saveWill (body pubkey : JSON) : Py σ Unit := do
  -- Check witnesses
  let body ← if ← noWitnesses body then monadLift (setItem body "status" (.str "valid"))
    else do addToWillLists c pubkey (← pyIter (← getItem body "witnesses")); pure body
  let willKey ← strAdd willPrefix pubkey
  c.set (.str willKey) body

/-- `create_will`: store the will of the testator in the body, as `saveWill` does. -/
def createWill (req : Request) : Py σ Response := do
  if req.method ≠ "POST" then return wrapResponse .null 200
  let body ← req.json
  if !(← pyIn (.str "public_key") body) then
    return wrapResponse (failure "Missing public_key") 400
  let pubkey ← getItem body "public_key"
  saveWill c body pubkey
  return wrapResponse processing 200

/-- `show_will`: the will of the key in the query. -/
def showWill (req : Request) : Py σ Response := do
  if req.method ≠ "GET" then return wrapResponse .null 200
  let some pubkey := req.queryGet "public_key"
    | return wrapResponse (failure "Missing public_key") 400
  let body ← c.getValue (.str (willPrefix ++ pubkey))
  return wrapResponse body 200

/-- One pass of the loop of `show_will_list`: the will of `willPubkey` with its
testator's record attached, or nothing when a step raises (the bare `except`). -/
def willWithTestator (willPubkey : JSON) : Py σ (Option JSON) :=
  Py.catchAll (do
    let will ← c.getValue (.str (← strAdd willPrefix willPubkey))
    let testator ← c.getValue (← getItem will "public_key")
    let will ← setItem will "testator" testator
    return some will) none

/-- The loop of `show_will_list`. -/
def willsWithTestator : List JSON → Py σ (List JSON)
  | [] => pure []
  | willPubkey :: willPubkeys => do
    let will ← willWithTestator c willPubkey
    let wills ← willsWithTestator willPubkeys
    return will.toList ++ wills

/-- `show_will_list`: the wills on the index of the witness in the query, each with its
testator's record. -/
def showWillList (req : Request) : Py σ Response := do
  if req.method ≠ "GET" then return wrapResponse .null 200
  let some pubkey := req.queryGet "public_key"
    | return wrapResponse (failure "Missing public_key") 400
  let willListPubkey ← Py.catchClient (c.getValue (.str (willListPrefix ++ pubkey)))
    (pure (.arr []))
  let willList ← willsWithTestator c (← pyIter willListPubkey)
  return wrapResponse (.arr willList) 200

/-- Lines 833–874 of `witness_sign`, once it has the testator and the witness: sign the
will, and store it back. -/
def signWill (pubkey witness : String) : Py σ Response := do
  let body ← c.getValue (.str (willPrefix ++ pubkey))
  let some body ← signBody body witness
    | return wrapResponse (failure "Witness is not found in this will") 400
  c.set (.str (willPrefix ++ pubkey)) body
  return wrapResponse body 200

/-- `witness_sign`: sign the will of the testator in the query for the witness in the
query, as `signWill` does. -/
def witnessSign (req : Request) : Py σ Response := do
  if req.method ≠ "GET" then return wrapResponse .null 200
  let (some pubkey, some witness) := (req.queryGet "public_key", req.queryGet "witness")
    | return wrapResponse (failure "Missing public_key and/or witness param") 400
  signWill c pubkey witness

end Handlers

/-! ### On the ledger with immediate commit -/

/-- A will without witnesses has none in a list either. -/
theorem noWitnesses_arr {body : JSON} {es : List JSON} (h : noWitnesses body = .ok true)
    (hw : body.field "witnesses" = some (.arr es)) : es = [] := by
  cases body <;> simp [field] at hw
  simpa [noWitnesses, pyIn_str_obj, hw, getItem, pyLen] using h

/-- `create_will` writes an index only when it read a list, and writes a list. -/
theorem willListAfter_some {willList pubkey v : JSON} (h : willListAfter willList pubkey = .ok (some v)) :
    ∃ L, willList = .arr L ∧ v = .arr (L ++ [pubkey]) := by
  cases hin : pyIn pubkey willList with
  | error e => simp [willListAfter, hin] at h
  | ok b =>
    cases b
    · cases willList with
      | arr xs =>
        simp [willListAfter, hin, pyAppend] at h
        exact ⟨_, rfl, h.symm⟩
      | _ => simp [willListAfter, hin, pyAppend] at h
    · simp [willListAfter, hin] at h

/-- One pass of the witness loop, over a client that reads the ledger `view x`. -/
theorem addToWillList_reads {σ : Type} {c : Client σ} {view : σ → Store}
    {write : σ → String → JSON → σ} (hc : ReadsFrom c view write) (pubkey wn : JSON) (x : σ) :
    addToWillList c pubkey wn x =
      match getItem wn "public_key" >>= strAdd willListPrefix with
      | .error e => (x, .error e)
      | .ok key =>
        match willListAfter ((view x key).getD (.arr [])) pubkey with
        | .error e => (x, .error e)
        | .ok none => (x, .ok ())
        | .ok (some v) => (write x key v, .ok ()) := by
  cases hk : getItem wn "public_key" >>= strAdd willListPrefix with
  | error e =>
    cases h1 : getItem wn "public_key" with
    | error e' => simp_all [addToWillList]
    | ok w => simp_all [addToWillList]
  | ok key =>
    have h1 : ∃ w, getItem wn "public_key" = .ok w ∧ strAdd willListPrefix w = .ok key := by
      cases h : getItem wn "public_key" <;> simp_all
    obtain ⟨w, h1, h2⟩ := h1
    have hread : Py.catchClient (c.getValue (.str key)) (pure (.arr [])) x
        = (x, .ok ((view x key).getD (.arr []))) := by
      cases hv : view x key <;>
        simp [Py.catchClient, hc.getValue_str, Store.lookup_of_none, Store.lookup_of_some, hv]
    cases hl : willListAfter ((view x key).getD (.arr [])) pubkey with
    | error e => simp [addToWillList, h1, h2, hread, hl]
    | ok r => cases r <;> simp [addToWillList, h1, h2, hread, hl, hc.set_str]

/-- One pass of the witness loop, on the ledger with immediate commit. -/
theorem addToWillList_run (pubkey wn : JSON) (s : Store) :
    addToWillList Store.client pubkey wn s =
      match getItem wn "public_key" >>= strAdd willListPrefix with
      | .error e => (s, .error e)
      | .ok key =>
        match willListAfter ((s key).getD (.arr [])) pubkey with
        | .error e => (s, .error e)
        | .ok none => (s, .ok ())
        | .ok (some v) => (s.put key v, .ok ()) :=
  addToWillList_reads Store.readsFrom pubkey wn s

/-- A property every pass of the witness loop keeps holds after the loop, whether the
loop finishes or raises. -/
theorem addToWillLists_preserves (P : Store → Prop) (pubkey : JSON)
    (hstep : ∀ wn s, P s → P (addToWillList Store.client pubkey wn s).1) :
    ∀ (es : List JSON) (s : Store), P s → P (addToWillLists Store.client pubkey es s).1
  | [], _, h => h
  | wn :: es, s, h => by
    simp only [addToWillLists, Py.run_bind]
    cases hr : addToWillList Store.client pubkey wn s with
    | mk s' r =>
      have h' : P s' := by simpa [hr] using hstep wn s h
      cases r with
      | error e => exact h'
      | ok u => exact addToWillLists_preserves P pubkey hstep es s' h'

/-- The witness loop writes lists only. -/
theorem addToWillLists_values (pubkey : JSON) (es : List JSON) (s : Store) (k : String) :
    (addToWillLists Store.client pubkey es s).1 k = s k ∨
      ∃ L, (addToWillLists Store.client pubkey es s).1 k = some (.arr L) := by
  refine addToWillLists_preserves (fun s' => s' k = s k ∨ ∃ L, s' k = some (.arr L)) pubkey
    (fun wn s' h => ?_) es s (.inl rfl)
  rw [addToWillList_run]
  cases hk : getItem wn "public_key" >>= strAdd willListPrefix with
  | error e => exact h
  | ok key =>
    cases hl : willListAfter ((s' key).getD (.arr [])) pubkey with
    | error e => simpa [hl] using h
    | ok r =>
      cases r with
      | none => simpa [hl] using h
      | some v =>
        obtain ⟨L, -, rfl⟩ := willListAfter_some hl
        by_cases e : k = key
        · exact .inr ⟨L ++ [pubkey], by simp [hl, e]⟩
        · simpa [hl, e] using h

/-- The witness loop writes only witnesses' indexes. -/
theorem addToWillList_frame (pubkey wn : JSON) (s : Store) {k : String}
    (hk : ∀ w, k ≠ willListPrefix ++ w) : (addToWillList Store.client pubkey wn s).1 k = s k := by
  rw [addToWillList_run]
  cases h : getItem wn "public_key" >>= strAdd willListPrefix with
  | error e => rfl
  | ok key =>
    obtain ⟨x, -, hx⟩ := except_bind_eq_ok.mp h
    obtain ⟨w, -, rfl⟩ := strAdd_eq_ok.mp hx
    cases hl : willListAfter ((s (willListPrefix ++ w)).getD (.arr [])) pubkey with
    | error e => simp [hl]
    | ok r => cases r <;> simp [hl, hk w]

theorem addToWillLists_frame (pubkey : JSON) (es : List JSON) (s : Store) {k : String}
    (hk : ∀ w, k ≠ willListPrefix ++ w) : (addToWillLists Store.client pubkey es s).1 k = s k :=
  addToWillLists_preserves (fun s' => s' k = s k) pubkey
    (fun wn s' h => (addToWillList_frame pubkey wn s' hk).trans h) es s rfl

/-- `saveWill` on the ledger with immediate commit: a will without witnesses is marked
`valid` and stored; otherwise the witness loop runs, and the will is stored once the
loop finishes. -/
theorem saveWill_run (body pubkey : JSON) (s : Store) :
    saveWill Store.client body pubkey s = match noWitnesses body with
      | .error e => (s, .error e)
      | .ok true => match setItem body "status" (.str "valid") with
        | .error e => (s, .error e)
        | .ok body' => match strAdd willPrefix pubkey with
          | .error e => (s, .error e)
          | .ok key => (s.put key body', .ok ())
      | .ok false => match getItem body "witnesses" >>= pyIter with
        | .error e => (s, .error e)
        | .ok es => Py.andThen (addToWillLists Store.client pubkey es s) fun _ s' =>
          match strAdd willPrefix pubkey with
          | .error e => (s', .error e)
          | .ok key => (s'.put key body, .ok ()) := by
  cases hn : noWitnesses body with
  | error e => simp only [saveWill, hn, Py.run_bind, Py.run_lift, Py.andThen_error]
  | ok none =>
  cases none
  · cases hw : getItem body "witnesses" with
    | error e =>
      simp only [saveWill, hn, hw, Py.run_bind, Py.run_lift, Py.andThen_ok, Bool.false_eq_true,
        ↓reduceIte, Py.andThen_error, except_bind_error]
    | ok ws =>
    cases hi : pyIter ws with
    | error e =>
      simp only [saveWill, hn, hw, hi, Py.run_bind, Py.run_lift, Py.andThen_ok, Bool.false_eq_true,
        ↓reduceIte, Py.andThen_error, except_bind_ok]
    | ok es =>
    simp only [saveWill, hn, hw, hi, Py.run_bind, Py.run_lift, Py.andThen_ok, Bool.false_eq_true,
      ↓reduceIte, except_bind_ok]
    cases addToWillLists Store.client pubkey es s with
    | mk s' r =>
    cases r with
    | error e => rfl
    | ok u => cases strAdd willPrefix pubkey <;> rfl
  · cases hs : setItem body "status" (.str "valid") with
    | error e =>
      simp only [saveWill, hn, hs, Py.run_bind, Py.run_lift, Py.andThen_ok, ↓reduceIte, Py.andThen_error]
    | ok body' =>
    simp only [saveWill, hn, hs, Py.run_bind, Py.run_lift, Py.andThen_ok, ↓reduceIte]
    cases strAdd willPrefix pubkey <;> rfl

/-- A `create_will` request that gets to the ledger: a `POST` whose JSON body has a
`public_key`. -/
structure CreateRequest (req : Request) (body pubkey : JSON) : Prop where
  method : req.method = "POST"
  json : req.json = .ok body
  hasKey : pyIn (.str "public_key") body = .ok true
  key : getItem body "public_key" = .ok pubkey

theorem CreateRequest.unique {req : Request} {b₁ b₂ p₁ p₂ : JSON}
    (h₁ : CreateRequest req b₁ p₁) (h₂ : CreateRequest req b₂ p₂) : b₁ = b₂ ∧ p₁ = p₂ := by
  obtain rfl : b₁ = b₂ := by simpa [h₁.json] using h₂.json
  exact ⟨rfl, by simpa [h₁.key] using h₂.key⟩

/-- The entries `create_will` loops over when the body names witnesses. -/
def WitnessEntries (body : JSON) (es : List JSON) : Prop :=
  noWitnesses body = .ok false ∧ (getItem body "witnesses" >>= pyIter) = .ok es

theorem WitnessEntries.unique {body : JSON} {es es' : List JSON} (h : WitnessEntries body es)
    (h' : WitnessEntries body es') : es = es' :=
  Except.ok.inj (h.2.symm.trans h'.2)

/-- What `create_will` does before its first client call, over every client: a request
that does not get to the ledger is answered without touching it, and one that does
goes on to `saveWill`. -/
theorem createWill_front (req : Request) :
    (∃ r, ¬ Succeeded r ∧ (∀ body pubkey, ¬ CreateRequest req body pubkey) ∧
      ∀ {σ : Type} (c : Client σ) (x : σ), createWill c req x = (x, r)) ∨
    ∃ body pubkey, CreateRequest req body pubkey ∧ ∀ {σ : Type} (c : Client σ) (x : σ),
      createWill c req x = Py.andThen (saveWill c body pubkey x)
        fun _ => pure (wrapResponse processing 200) := by
  by_cases hreq : ∃ body pubkey, CreateRequest req body pubkey
  · obtain ⟨body, pubkey, hm, hb, hk, hp⟩ := hreq
    exact .inr ⟨body, pubkey, ⟨hm, hb, hk, hp⟩, fun c x => by simp [createWill, hm, hb, hk, hp]⟩
  push_neg at hreq
  refine .inl ?_
  by_cases hm : req.method = "POST"
  swap
  · exact ⟨_, not_succeeded_null, hreq, fun c x => by simp [createWill, hm]⟩
  cases hb : req.json with
  | error e => exact ⟨_, not_succeeded_error e, hreq, fun c x => by simp [createWill, hm, hb]⟩
  | ok body =>
  cases hk : pyIn (.str "public_key") body with
  | error e => exact ⟨_, not_succeeded_error e, hreq, fun c x => by simp [createWill, hm, hb, hk]⟩
  | ok inb =>
  cases inb
  · exact ⟨_, not_succeeded_400 (failure "Missing public_key"), hreq,
      fun c x => by simp [createWill, hm, hb, hk]⟩
  cases hp : getItem body "public_key" with
  | error e => exact ⟨_, not_succeeded_error e, hreq, fun c x => by simp [createWill, hm, hb, hk, hp]⟩
  | ok pubkey => exact absurd ⟨hm, hb, hk, hp⟩ (hreq body pubkey)

theorem createWill_cases (req : Request) (s : Store) :
    (∃ r, createWill Store.client req s = (s, r) ∧ ¬ Succeeded r) ∨
    (∃ body pubkey es e, CreateRequest req body pubkey ∧ WitnessEntries body es ∧
      ((addToWillLists Store.client pubkey es s).2 = .error e ∨ ∀ t, pubkey ≠ .str t) ∧
      createWill Store.client req s = ((addToWillLists Store.client pubkey es s).1, .error e)) ∨
    (∃ body t body', CreateRequest req body (.str t) ∧ noWitnesses body = .ok true ∧
      setItem body "status" (.str "valid") = .ok body' ∧
      createWill Store.client req s
        = (s.put (willPrefix ++ t) body', .ok (wrapResponse processing 200))) ∨
    (∃ body t es s', CreateRequest req body (.str t) ∧ WitnessEntries body es ∧
      addToWillLists Store.client (.str t) es s = (s', .ok ()) ∧
      createWill Store.client req s
        = (s'.put (willPrefix ++ t) body, .ok (wrapResponse processing 200))) := by
  rcases createWill_front req with ⟨r, hr, -, h⟩ | ⟨body, pubkey, hreq, h⟩
  · exact .inl ⟨r, h _ s, hr⟩
  rw [h, saveWill_run]
  cases hn : noWitnesses body with
  | error e => exact .inl ⟨_, rfl, not_succeeded_error e⟩
  | ok none =>
  cases none
  · cases hi : getItem body "witnesses" >>= pyIter with
    | error e => exact .inl ⟨_, rfl, not_succeeded_error e⟩
    | ok es =>
    have hes : WitnessEntries body es := ⟨hn, hi⟩
    dsimp only
    cases hl : addToWillLists Store.client pubkey es s with
    | mk s' r =>
    cases r with
    | error e => exact .inr (.inl ⟨body, pubkey, es, e, hreq, hes, .inl (by rw [hl]), by rw [hl]; rfl⟩)
    | ok u =>
    cases pubkey with
    | str t => exact .inr (.inr (.inr ⟨body, t, es, s', hreq, hes, hl, rfl⟩))
    | _ => exact .inr (.inl ⟨body, _, es, .typeError, hreq, hes, .inr (by simp), by rw [hl]; rfl⟩)
  · cases hs : setItem body "status" (.str "valid") with
    | error e => exact .inl ⟨_, rfl, not_succeeded_error e⟩
    | ok body' =>
    cases pubkey with
    | str t => exact .inr (.inr (.inl ⟨body, t, body', hreq, hn, hs, rfl⟩))
    | _ => exact .inl ⟨_, rfl, not_succeeded_error .typeError⟩

/-- A `witness_sign` request that gets to the ledger: a `GET` naming a testator and a
witness. -/
structure SignRequest (req : Request) (pubkey witness : String) : Prop where
  method : req.method = "GET"
  key : req.queryGet "public_key" = some pubkey
  witness : req.queryGet "witness" = some witness

theorem SignRequest.unique {req : Request} {t₁ t₂ w₁ w₂ : String}
    (h₁ : SignRequest req t₁ w₁) (h₂ : SignRequest req t₂ w₂) : t₁ = t₂ ∧ w₁ = w₂ :=
  ⟨by simpa [h₁.key] using h₂.key, by simpa [h₁.witness] using h₂.witness⟩

/-- `signWill` over a client that reads the ledger `view x`. -/
theorem signWill_reads {σ : Type} {c : Client σ} {view : σ → Store}
    {write : σ → String → JSON → σ} (hc : ReadsFrom c view write) (t w : String) (x : σ) :
    signWill c t w x = match view x (willPrefix ++ t) with
      | none => (x, .error .keyNotFound)
      | some W => match signBody W w with
        | .error e => (x, .error e)
        | .ok none => (x, .ok (wrapResponse (failure "Witness is not found in this will") 400))
        | .ok (some W') => (write x (willPrefix ++ t) W', .ok (wrapResponse W' 200)) := by
  cases hW : view x (willPrefix ++ t) with
  | none => simp [signWill, hc.getValue_str, Store.lookup_of_none hW]
  | some W =>
  cases hs : signBody W w with
  | error e => simp [signWill, hc.getValue_str, Store.lookup_of_some hW, hs]
  | ok r => cases r <;> simp [signWill, hc.getValue_str, hc.set_str, Store.lookup_of_some hW, hs]

/-- What `witness_sign` does before its first client call, over every client. -/
theorem witnessSign_front (req : Request) :
    (∃ r, ¬ Succeeded r ∧ (∀ t w, ¬ SignRequest req t w) ∧
      ∀ {σ : Type} (c : Client σ) (x : σ), witnessSign c req x = (x, r)) ∨
    ∃ t w, SignRequest req t w ∧ ∀ {σ : Type} (c : Client σ) (x : σ),
      witnessSign c req x = signWill c t w x := by
  by_cases hreq : ∃ t w, SignRequest req t w
  · obtain ⟨t, w, hm, hq, hw⟩ := hreq
    exact .inr ⟨t, w, ⟨hm, hq, hw⟩, fun c x => by simp [witnessSign, hm, hq, hw]⟩
  push_neg at hreq
  refine .inl ?_
  by_cases hm : req.method = "GET"
  swap
  · exact ⟨_, not_succeeded_null, hreq, fun c x => by simp [witnessSign, hm]⟩
  cases hq : req.queryGet "public_key" with
  | none => exact ⟨_, not_succeeded_400 (failure "Missing public_key and/or witness param"), hreq,
      fun c x => by simp [witnessSign, hm, hq]⟩
  | some t =>
  cases hw : req.queryGet "witness" with
  | none => exact ⟨_, not_succeeded_400 (failure "Missing public_key and/or witness param"), hreq,
      fun c x => by simp [witnessSign, hm, hq, hw]⟩
  | some w => exact absurd ⟨hm, hq, hw⟩ (hreq t w)

theorem witnessSign_cases (req : Request) (s : Store) :
    (∃ r, witnessSign Store.client req s = (s, r) ∧ ¬ Succeeded r) ∨
    (∃ t w W W', SignRequest req t w ∧ s (willPrefix ++ t) = some W ∧
      signBody W w = .ok (some W') ∧
      witnessSign Store.client req s = (s.put (willPrefix ++ t) W', .ok (wrapResponse W' 200))) := by
  rcases witnessSign_front req with ⟨r, hr, -, h⟩ | ⟨t, w, hreq, h⟩
  · exact .inl ⟨r, h _ s, hr⟩
  simp only [h, signWill_reads Store.readsFrom]
  cases hW : s (willPrefix ++ t) with
  | none => exact .inl ⟨_, rfl, not_succeeded_error .keyNotFound⟩
  | some W =>
  dsimp only
  cases hs : signBody W w with
  | error e => exact .inl ⟨_, rfl, not_succeeded_error e⟩
  | ok r =>
  cases r with
  | none => exact .inl ⟨_, rfl, not_succeeded_400 (failure "Witness is not found in this will")⟩
  | some W' => exact .inr ⟨t, w, W, W', hreq, hW, hs, rfl⟩

end IntkeyWill
