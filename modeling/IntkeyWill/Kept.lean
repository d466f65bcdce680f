import IntkeyWill.Order
import IntkeyWill.Validity

/-!
# What a will keeps

`witness_sign` only ever marks entries `signed` and the will `valid`: it never takes a
signature or the status back.  The other requests leave a will alone unless they write
its key.  `create_will` for its testator writes a new will; `register_pubkey` for the key
`WILL_t` writes a user record over it; `approve_public_key` for that key sets its status
to `approved`, and keeps its entries.  `create_will` for another testator writes a will
key only where its witness loop finds a list there.  So over any run without these
requests a valid will stays valid and a witness who signed stays signed (`will_kept`).
Approvals of the will key and failed creations for the testator aside, a successful
signature is never lost until the will is created anew (`signature_recorded`): the
converse of the first half of `valid_will_signed`.

The witness indexes keep their testators the same way.  The witness loop of `create_will`
only appends to an index, `witness_sign` writes wills only, an approval sets a status only
in a dict, and a registration of no will key writes none.  So a testator stays on a
witness's index when its will is written anew without that witness (`indexes_kept`), and
`show_will_list` goes on answering that will to the witness.

## Main definitions

* `willValid`, `signedBy` — a will marked valid, and a witness's signed entry.
* `Kept`, `KeptAt` — what a will keeps: its validity and its signatures.
* `Call.Spares` — a request that writes no will of `t`.
* `IndexKept` — what a ledger keeps of the witness indexes.

## Main results

* `kept_signedOr` — a signature keeps the will.
* `createWill_keptAt`, `Call.keptAt_step` — one request that writes no will of `t`
  keeps it.
* `will_kept` — **a run that writes no will of `t` keeps it**.
* `signedBy_witnessSign`, `Call.signedBy_step` — a signature is recorded, and kept.
* `signature_recorded` — **a signature since the creation of the will is recorded in it**.
* `Call.indexKept_step` — one request keeps the indexes.
* `indexes_kept` — **no testator leaves a witness index**.
-/

namespace IntkeyWill

open JSON

/-! ### Wills and what they keep -/

/-- The will is marked `valid`. -/
def willValid (W : JSON) : Bool := W.field "status" = some (.str "valid")

/-- An entry of the will naming the witness `w` is signed. -/
def signedBy (W : JSON) (w : String) : Bool :=
  match W.field "witnesses" with
  | some (.arr es) => es.any fun e => entryNames w e && entrySigned e
  | _ => false

/-- What the value `W'` keeps of the will `W`: its validity and its signatures. -/
structure Kept (W W' : JSON) : Prop where
  valid : willValid W → willValid W'
  signed : ∀ w, signedBy W w → signedBy W' w

theorem Kept.refl (W : JSON) : Kept W W := ⟨id, fun _ => id⟩

theorem Kept.trans {W W' W'' : JSON} (h : Kept W W') (h' : Kept W' W'') : Kept W W'' :=
  ⟨h'.valid ∘ h.valid, fun w => h'.signed w ∘ h.signed w⟩

/-- A list, as the witness loop writes one, is no will: it has nothing to keep. -/
theorem kept_arr (L : List JSON) (W' : JSON) : Kept (.arr L) W' :=
  ⟨fun h => by simp [willValid, field] at h, fun w h => by simp [signedBy, field] at h⟩

theorem signedBy_obj {kvs : List (String × JSON)} {es : List JSON} (hw : kvs.lookup "witnesses" = some (.arr es))
    (w : String) : signedBy (.obj kvs) w = es.any fun e => entryNames w e && entrySigned e := by
  simp [signedBy, field, hw]

/-- The will a signature writes back keeps the will it read: the signed entries stay
signed, and the status is set to `valid` or left. -/
theorem kept_signedWill {kvs : List (String × JSON)} {es : List JSON}
    (hw : kvs.lookup "witnesses" = some (.arr es)) (w : String) : Kept (.obj kvs) (signedWill kvs es w) := by
  constructor
  · intro h
    unfold signedWill
    split <;> simp_all [willValid, field, lookup_setField_self, lookup_setField_of_ne]
  · intro x h
    obtain ⟨e, he, hx⟩ := List.any_eq_true.1 ((signedBy_obj hw x).symm.trans h)
    simp only [signedBy, signedWill_witnesses, List.any_map, List.any_eq_true, Function.comp,
      entryNames_markSigned, entrySigned_markSigned]
    exact ⟨e, he, by simp_all⟩

theorem kept_signedOr (W : JSON) (w : String) : Kept W (signedOr W w) := by
  unfold signedOr
  cases h : signBody W w with
  | error e => exact .refl W
  | ok r =>
    cases r with
    | none => exact .refl W
    | some W' =>
      obtain ⟨kvs, es, rfl, hw, -, -, rfl⟩ := signBody_eq_some.1 h
      exact kept_signedWill hw w

/-- Every value under `k` in `u` is still there in `u'`, and `u'` keeps what it held. -/
def KeptAt (k : String) (u u' : Store) : Prop := ∀ W, u k = some W → ∃ W', u' k = some W' ∧ Kept W W'

theorem KeptAt.refl (k : String) (u : Store) : KeptAt k u u := fun W h => ⟨W, h, .refl W⟩

theorem KeptAt.trans {k : String} {u u' u'' : Store} (h : KeptAt k u u') (h' : KeptAt k u' u'') :
    KeptAt k u u'' := fun W hW =>
  let ⟨W', hW', hk⟩ := h W hW
  let ⟨W'', hW'', hk'⟩ := h' W' hW'
  ⟨W'', hW'', hk.trans hk'⟩

theorem keptAt_of_eq {k : String} {u u' : Store} (h : u' k = u k) : KeptAt k u u' :=
  fun W hW => ⟨W, h.trans hW, .refl W⟩

/-! ### One request -/

/-- A pass of the witness loop writes a key only where it finds a list. -/
theorem keptAt_addToWillList (pubkey wn : JSON) (k : String) (u : Store) :
    KeptAt k u (addToWillList Store.client pubkey wn u).1 := by
  rw [addToWillList_run]
  cases getItem wn "public_key" >>= strAdd willListPrefix with
  | error e => exact .refl k u
  | ok key =>
    dsimp only
    cases hv : willListAfter ((u key).getD (.arr [])) pubkey with
    | error e => exact .refl k u
    | ok v =>
      cases v with
      | none => exact .refl k u
      | some v =>
        intro W hW
        by_cases hk : k = key
        · subst hk
          obtain ⟨L, hL, -⟩ := willListAfter_some hv
          rw [hW, Option.getD_some] at hL
          exact ⟨v, by simp, hL ▸ kept_arr L v⟩
        · exact ⟨W, by simp [hk, hW], .refl W⟩

theorem keptAt_addToWillLists (pubkey : JSON) (es : List JSON) (k : String) (u : Store) :
    KeptAt k u (addToWillLists Store.client pubkey es u).1 :=
  addToWillLists_preserves (KeptAt k u) pubkey (fun wn s h => h.trans (keptAt_addToWillList pubkey wn k s))
    es u (.refl k u)

/-- A `create_will` request that does not succeed for `t` keeps `t`'s will: it writes the
will keys of other testators, and indexes. -/
theorem createWill_keptAt (req : Request) {t : String} (u : Store)
    (h : ∀ body, CreateRequest req body (.str t) → ¬ Succeeded (createWill Store.client req u).2) :
    KeptAt (willPrefix ++ t) u (createWill Store.client req u).1 := by
  -- a successful creation for another testator writes another key
  have other : ∀ {body t'}, CreateRequest req body (.str t') → Succeeded (createWill Store.client req u).2 →
      willPrefix ++ t ≠ willPrefix ++ t' := fun hreq hs e => h _ (willPrefix_append_inj.1 e ▸ hreq) hs
  rcases createWill_cases req u with ⟨r, e, -⟩ | ⟨body, pubkey, es, r, -, -, -, e⟩ |
    ⟨body, t', body', hreq, -, -, e⟩ | ⟨body, t', es, u', hreq, -, hl, e⟩
  · rw [e]
    exact .refl _ u
  · rw [e]
    exact keptAt_addToWillLists pubkey es _ u
  · have hk := other hreq (by rw [e]; exact succeeded_wrapResponse (by decide))
    rw [e]
    exact keptAt_of_eq (by simp [hk])
  · have hk := other hreq (by rw [e]; exact succeeded_wrapResponse (by decide))
    have hu := keptAt_addToWillLists (.str t') es (willPrefix ++ t) u
    rw [hl] at hu
    rw [e]
    exact hu.trans (keptAt_of_eq (by simp [hk]))

/-- The request writes no will of `t`: it does not create `t`'s will, and it does not
register or approve the key `WILL_t`. -/
def Call.Spares (t : String) : Call → Prop
  | .registerPubkey req => ∀ record, ¬ RegisterRequest req record (.str (willPrefix ++ t))
  | .approvePublicKey req => ¬ ApproveRequest req (willPrefix ++ t)
  | .createWill req => ∀ body, ¬ CreateRequest req body (.str t)
  | .witnessSign _ => True

/-- A signature keeps every will: on its own will it is `signedOr`. -/
theorem witnessSign_keptAt (req : Request) (t : String) (u : Store) :
    KeptAt (willPrefix ++ t) u ((Call.witnessSign req).step u).1 := by
  rcases witnessSign_step req with ⟨-, e⟩ | ⟨t', w, -, e⟩ <;> rw [e]
  · exact .refl _ u
  intro W hW
  rw [signAt_apply]
  split
  · exact ⟨_, by rw [hW, Option.map_some'], kept_signedOr W w⟩
  · exact ⟨W, hW, .refl W⟩

theorem Call.keptAt_step {t : String} {c : Call} (hc : c.Spares t) (u : Store) :
    KeptAt (willPrefix ++ t) u (c.step u).1 := by
  have hk : willPrefix ++ t ≠ keyNeedReview := fun e => not_isWillKey_keyNeedReview (e ▸ isWillKey_willPrefix t)
  cases c with
  | registerPubkey req => exact keptAt_of_eq (registerPubkey_frame req u hk hc)
  | approvePublicKey req => exact keptAt_of_eq (approvePublicKey_frame req u hk hc)
  | createWill req => exact createWill_keptAt req u fun body h => absurd h (hc body)
  | witnessSign req => exact witnessSign_keptAt req t u

/-! ### Runs -/

/-- **A will keeps its validity and its signatures**: over any run in which no request
creates `t`'s will or registers or approves the key `WILL_t`, the will of `t` stays, a
valid will stays valid, and a witness who signed it stays signed. -/
theorem will_kept (s : Store) (t : String) :
    ∀ cs : List Call, (∀ c ∈ cs, c.Spares t) → KeptAt (willPrefix ++ t) s (runStore s cs)
  | [], _ => .refl _ s
  | c :: cs, h => (will_kept s t cs fun c' h' => h c' (List.mem_cons_of_mem c h')).trans
      (Call.keptAt_step (h c (List.mem_cons_self c cs)) _)

/-- On a ledger holding `d`'s will, signed by `a`, a signature of `c`, a registration and a
will of `b` naming `d` keep it. -/
theorem will_kept_three :
    let s := Store.empty.put (willPrefix ++ "d") (.obj [("public_key", .str "d"), ("witnesses",
      .arr [.obj [("public_key", .str "a"), ("status", .str "signed")], .obj [("public_key", .str "c")]])])
    let sign := Call.witnessSign ⟨"GET", none, [("public_key", "d"), ("witness", "c")]⟩
    let reg := Call.registerPubkey ⟨"POST", some (.obj [("public_key", .str "e")]), []⟩
    let will := Call.createWill ⟨"POST", some (.obj [("public_key", .str "b"),
      ("witnesses", .arr [.obj [("public_key", .str "d")]])]), []⟩
    (∀ c ∈ [sign, reg, will], c.Spares "d") ∧ KeptAt (willPrefix ++ "d") s (runStore s [sign, reg, will]) := by
  intro s sign reg will
  have hreg : RegisterRequest ⟨"POST", some (.obj [("public_key", .str "e")]), []⟩ _ (.str "e") :=
    ⟨rfl, ⟨_, rfl, rfl, rfl⟩, rfl⟩
  have hwill : CreateRequest ⟨"POST", some (.obj [("public_key", .str "b"),
      ("witnesses", .arr [.obj [("public_key", .str "d")]])]), []⟩ _ (.str "b") := ⟨rfl, rfl, rfl, rfl⟩
  have hc : ∀ c ∈ [sign, reg, will], c.Spares "d" := by
    simp only [List.mem_cons, List.mem_singleton, List.not_mem_nil, or_false]
    rintro c (rfl | rfl | rfl)
    · trivial
    · exact fun record h => absurd (JSON.str.inj (hreg.unique h).2) (by decide)
    · exact fun body h => absurd (JSON.str.inj (hwill.unique h).2) (by decide)
  exact ⟨hc, will_kept s "d" _ hc⟩

/-- Without the condition a will is not kept: approving the key `WILL_d` marks `d`'s valid
will `approved`. -/
example :
    let s := Store.empty.put (willPrefix ++ "d") (.obj [("public_key", .str "d"), ("witnesses",
      .arr [.obj [("public_key", .str "a"), ("status", .str "signed")]]), ("status", .str "valid")])
    let appr := Call.approvePublicKey ⟨"GET", none, [("public_key", willPrefix ++ "d")]⟩
    (s (willPrefix ++ "d")).map willValid = some true ∧
      ((appr.step s).1 (willPrefix ++ "d")).map willValid = some false := by
  decide

/-! ### Signatures since a creation -/

theorem signedBy_setItem_status {b body v : JSON} (h : setItem b "status" v = .ok body) (w : String) :
    signedBy body w = signedBy b w := by
  obtain ⟨kvs, rfl, rfl⟩ := setItem_eq_ok.1 h
  simp [signedBy, field, lookup_setField_of_ne (show "witnesses" ≠ "status" by decide)]

/-- An approval of the key of a will marks it `approved`, and keeps its signatures. -/
theorem approvePublicKey_signedBy (req : Request) {k : String} (hk : k ≠ keyNeedReview) {u : Store}
    {W : JSON} (hW : u k = some W) {w : String} (hs : signedBy W w) :
    ∃ W', (approvePublicKey Store.client req u).1 k = some W' ∧ signedBy W' w := by
  by_cases hreq : ApproveRequest req k
  · rcases approvePublicKey_cases req u with ⟨r, e, -⟩ | ⟨k', body, r, hreq', ⟨b, hb, hbody⟩, -, e⟩ |
      ⟨k', body, l, L, hreq', ⟨b, hb, hbody⟩, -, -, e⟩ <;> rw [e]
    · exact ⟨W, hW, hs⟩
    all_goals
      obtain rfl := hreq.unique hreq'
      obtain rfl : b = W := Option.some.inj (hb.symm.trans hW)
      exact ⟨body, by simp [hk], (signedBy_setItem_status hbody w).trans hs⟩
  · exact ⟨W, (approvePublicKey_frame req u hk hreq).trans hW, hs⟩

/-- A successful signature of `w` is recorded in the will it signs. -/
theorem signedBy_witnessSign {req : Request} {t w : String} (hreq : SignRequest req t w) {u : Store}
    (hs : Succeeded (witnessSign Store.client req u).2) :
    ∃ W', (witnessSign Store.client req u).1 (willPrefix ++ t) = some W' ∧ signedBy W' w := by
  rcases witnessSign_cases req u with ⟨r, e, hns⟩ | ⟨t', w', W, W', hreq', -, hsign, e⟩
  · rw [e] at hs
    exact absurd hs hns
  obtain ⟨rfl, rfl⟩ := hreq.unique hreq'
  obtain ⟨kvs, es, rfl, -, -, hany, rfl⟩ := signBody_eq_some.1 hsign
  obtain ⟨e₀, he₀, hn⟩ := List.any_eq_true.1 hany
  refine ⟨signedWill kvs es w, by rw [e]; simp, ?_⟩
  simp only [signedBy, signedWill_witnesses, List.any_map, List.any_eq_true, Function.comp,
    entryNames_markSigned, entrySigned_markSigned]
  exact ⟨e₀, he₀, by simp [hn]⟩

/-- A request that registers no will key and does not create `t`'s will successfully
keeps the signatures of `t`'s will. -/
theorem Call.signedBy_step {c : Call} (hc : c.NamesNoWillKey) {t : String} {u : Store}
    (hn : c.Creates t → ¬ Succeeded (c.step u).2) {W : JSON} (hW : u (willPrefix ++ t) = some W)
    {w : String} (hs : signedBy W w) : ∃ W', (c.step u).1 (willPrefix ++ t) = some W' ∧ signedBy W' w := by
  have hk : willPrefix ++ t ≠ keyNeedReview := fun e => not_isWillKey_keyNeedReview (e ▸ isWillKey_willPrefix t)
  -- the requests that keep the will keep its signatures
  have kept : KeptAt (willPrefix ++ t) u (c.step u).1 →
      ∃ W', (c.step u).1 (willPrefix ++ t) = some W' ∧ signedBy W' w := fun h =>
    let ⟨W', hW', hk'⟩ := h W hW
    ⟨W', hW', hk'.signed w hs⟩
  cases c with
  | registerPubkey req =>
    exact kept (@Call.keptAt_step t (.registerPubkey req) (fun record h => hc record _ h (isWillKey_willPrefix t)) u)
  | approvePublicKey req => exact approvePublicKey_signedBy req hk hW hs
  | createWill req => exact kept (createWill_keptAt req u fun body h => hn ⟨body, h⟩)
  | witnessSign req => exact kept (witnessSign_keptAt req t u)

/-- **A signature is recorded until the will is created anew**: in a run from the empty
ledger in which no `register_pubkey` stores a record under a will key, a witness `w` who
has signed `t`'s will successfully since its last successful creation has a signed entry
in the will of `t`. -/
theorem signature_recorded {t w : String} :
    ∀ cs : List Call, (∀ c ∈ cs, c.NamesNoWillKey) → SignedSince t w cs →
      ∃ W, run cs (willPrefix ++ t) = some W ∧ signedBy W w
  | [], _, h => absurd h (since_nil _ _)
  | c :: cs, hc, h => by
    obtain ⟨hstop, hnew | hold⟩ := (since_cons _ _ c cs).1 h
    · -- the signature itself
      cases c with
      | witnessSign req => exact signedBy_witnessSign hnew.1 hnew.2
      | _ => cases hnew.1
    · obtain ⟨W, hW, hs⟩ := signature_recorded cs (fun c' h' => hc c' (List.mem_cons_of_mem c h')) hold
      exact Call.signedBy_step (hc c (List.mem_cons_self c cs)) (fun hcr hsc => hstop ⟨hcr, hsc⟩) hW hs

/-- `d` writes a will naming `a`, `a` signs it, and the key `WILL_d` is approved: the
approval marks the will `approved`, and `a`'s signature stays. -/
theorem signature_recorded_approved :
    let will := Call.createWill ⟨"POST", some (.obj [("public_key", .str "d"),
      ("witnesses", .arr [.obj [("public_key", .str "a")]])]), []⟩
    let sign := Call.witnessSign ⟨"GET", none, [("public_key", "d"), ("witness", "a")]⟩
    let appr := Call.approvePublicKey ⟨"GET", none, [("public_key", willPrefix ++ "d")]⟩
    (∀ c ∈ [appr, sign, will], c.NamesNoWillKey) ∧ SignedSince "d" "a" [appr, sign, will] ∧
      ∃ W, run [appr, sign, will] (willPrefix ++ "d") = some W ∧ signedBy W "a" := by
  intro will sign appr
  have hkey : ∀ c ∈ [appr, sign, will], c.NamesNoWillKey := by simp [Call.NamesNoWillKey]
  have hsucc : sign.Succeeds [will] := ⟨_, rfl, rfl, by decide⟩
  have hsince : SignedSince "d" "a" [appr, sign, will] :=
    ⟨fun h => h.1, .inr ⟨fun h => h.1, .inl ⟨⟨rfl, rfl, rfl⟩, hsucc⟩⟩⟩
  exact ⟨hkey, hsince, signature_recorded _ hkey hsince⟩

/-! ### Indexes -/

/-- What `s'` keeps of the indexes of `s`: they are absent or lists without two `==`
testators, and every testator on an index of `s` is on it in `s'`. -/
structure IndexKept (s s' : Store) : Prop where
  shape : IndexShape s'
  kept : ∀ w x, x ∈ indexOf s w → x ∈ indexOf s' w

section IndexKept

variable {s s' s'' : Store}

theorem IndexKept.refl (h : IndexShape s) : IndexKept s s := ⟨h, fun _ _ => id⟩

theorem IndexKept.trans (h : IndexKept s s') (h' : IndexKept s' s'') : IndexKept s s'' :=
  ⟨h'.shape, fun w x hx => h'.kept w x (h.kept w x hx)⟩

/-- A ledger with the same index keys keeps the indexes. -/
theorem indexKept_of_eq (h : IndexShape s) (he : ∀ w, s' (willListPrefix ++ w) = s (willListPrefix ++ w)) :
    IndexKept s s' := by
  have hi : ∀ w, indexOf s' w = indexOf s w := fun w => by simp only [indexOf, he]
  refine ⟨⟨fun w => ?_, fun w => hi w ▸ h.distinct w⟩, fun w x hx => (hi w).symm ▸ hx⟩
  rw [he, hi]
  exact h.shape w

/-- Writing the will of a testator that is not `LIST_…` keeps the indexes. -/
theorem IndexShape.indexKept_put_will (h : IndexShape s) {t : String} (ht : ∀ w, t ≠ "LIST_" ++ w)
    (v : JSON) : IndexKept s (s.put (willPrefix ++ t) v) :=
  ⟨h.put_will ht v, fun w x hx => by rwa [indexOf_put_will s ht]⟩

end IndexKept

theorem index_ne_keyNeedReview (w : String) : willListPrefix ++ w ≠ keyNeedReview :=
  fun e => not_isWillKey_keyNeedReview (e ▸ isWillKey_willListPrefix w)

section Handlers

variable {u : Store}

theorem registerPubkey_indexKept (h : IndexShape u) {req : Request}
    (hkey : (Call.registerPubkey req).NamesNoWillKey) : IndexKept u (registerPubkey Store.client req u).1 :=
  indexKept_of_eq h fun w => registerPubkey_frame req u (index_ne_keyNeedReview w)
    fun record hr => hkey record _ hr (isWillKey_willListPrefix w)

/-- An approval writes no index: it sets a status only in a dict, and an index holds none. -/
theorem approvePublicKey_indexKept (h : IndexShape u) (req : Request) :
    IndexKept u (approvePublicKey Store.client req u).1 := by
  have hk : ∀ {k b body}, u k = some b → setItem b "status" (.str "approved") = .ok body →
      ∀ w, willListPrefix ++ w ≠ k := by
    rintro k b body hb hs w rfl
    obtain ⟨kvs, rfl, -⟩ := setItem_eq_ok.1 hs
    rcases h.shape w with h0 | h0 <;> rw [h0] at hb <;> cases hb
  rcases approvePublicKey_cases req u with
    ⟨r, hr, -⟩ | ⟨k, body, e, -, ⟨b, hb, hs⟩, -, hr⟩ | ⟨k, body, l, L, -, ⟨b, hb, hs⟩, -, -, hr⟩ <;>
    rw [hr]
  · exact .refl h
  · exact indexKept_of_eq h fun w => by simp [hk hb hs w]
  · exact indexKept_of_eq h fun w => by simp [hk hb hs w, index_ne_keyNeedReview w]

/-- `create_will` keeps the indexes, when its testator is not `LIST_…`: its witness loop
only adds to them, whether it finishes or raises. -/
theorem createWill_indexKept (h : IndexShape u) {req : Request}
    (hkey : (Call.createWill req).CreatesNoIndexKey) : IndexKept u (createWill Store.client req u).1 := by
  rcases createWill_cases req u with
    ⟨r, hr, -⟩ | ⟨_, p, es, e, _, _, _, hr⟩ | ⟨body, t, body', hreq, -, -, hr⟩ |
      ⟨body, t, es, u', hreq, -, hl, hr⟩ <;> rw [hr]
  · exact .refl h
  · exact ⟨(h.addToWillLists p es).1, (h.addToWillLists p es).2⟩
  · exact h.indexKept_put_will (hkey body t hreq) body'
  · have hloop : IndexKept u u' := by
      have hl' := h.addToWillLists (.str t) es
      rw [hl] at hl'
      exact ⟨hl'.1, hl'.2⟩
    exact hloop.trans (hloop.shape.indexKept_put_will (hkey body t hreq) body)

/-- `witness_sign` keeps the indexes: the will it writes back is no index. -/
theorem witnessSign_indexKept (h : IndexShape u) (req : Request) :
    IndexKept u (witnessSign Store.client req u).1 := by
  rcases witnessSign_cases req u with ⟨r, hr, -⟩ | ⟨t, w, W, W', -, hW, hsign, hr⟩ <;> rw [hr]
  · exact .refl h
  · obtain ⟨kvs, es, rfl, hws, -, -, rfl⟩ := signBody_eq_some.1 hsign
    refine h.indexKept_put_will (fun w' ht => ?_) _
    subst ht
    simpa [field, hws] using h.not_will hW

end Handlers

theorem Call.indexKept_step {c : Call} (hc : c.NamesNoWillKey ∧ c.CreatesNoIndexKey) {u : Store}
    (h : IndexShape u) : IndexKept u (c.step u).1 := by
  cases c with
  | registerPubkey req => exact registerPubkey_indexKept h hc.1
  | approvePublicKey req => exact approvePublicKey_indexKept h req
  | createWill req => exact createWill_indexKept h hc.2
  | witnessSign req => exact witnessSign_indexKept h req

/-- **No testator leaves a witness index**: over any run in which no `register_pubkey`
request registers a will key and no `create_will` request is for a testator `LIST_…`,
the indexes stay lists without two `==` testators, and every testator on one stays on
it, also once the testator's will is written anew without naming that witness. -/
theorem indexes_kept (s : Store) (hs : IndexShape s) :
    ∀ cs : List Call, (∀ c ∈ cs, c.NamesNoWillKey ∧ c.CreatesNoIndexKey) → IndexKept s (runStore s cs)
  | [], _ => .refl hs
  | c :: cs, h =>
    have ih := indexes_kept s hs cs fun c' h' => h c' (List.mem_cons_of_mem c h')
    ih.trans (Call.indexKept_step (h c (List.mem_cons_self c cs)) ih.shape)

/-- `a` writes a will naming `b`, then writes it anew naming `c`: `a` stays on `b`'s index,
though `a`'s will no longer names `b`. -/
theorem indexes_kept_recreated :
    let will := fun w : String => Call.createWill ⟨"POST", some (.obj [("public_key", .str "a"),
      ("witnesses", .arr [.obj [("public_key", .str w)]])]), []⟩
    let s := runStore Store.empty [will "b"]
    IndexShape s ∧ (∀ c ∈ [will "c"], c.NamesNoWillKey ∧ c.CreatesNoIndexKey) ∧
      IndexKept s (runStore s [will "c"]) ∧ .str "a" ∈ indexOf s "b" ∧
      .str "a" ∈ indexOf (runStore s [will "c"]) "b" ∧
      runStore s [will "c"] (willPrefix ++ "a")
        = some (.obj [("public_key", .str "a"), ("witnesses", .arr [.obj [("public_key", .str "c")]])]) := by
  intro will s
  have hc : ∀ w, (will w).NamesNoWillKey ∧ (will w).CreatesNoIndexKey := fun w => by
    refine ⟨trivial, fun body t hreq w' ht => ?_⟩
    have h0 : CreateRequest ⟨"POST", some (.obj [("public_key", .str "a"),
        ("witnesses", .arr [.obj [("public_key", .str w)]])]), []⟩ _ (.str "a") := ⟨rfl, rfl, rfl, rfl⟩
    obtain rfl := JSON.str.inj (hreq.unique h0).2
    simp [String.ext_iff] at ht
  have hs : IndexShape s := (Call.indexKept_step (hc "b") indexInv_empty.toIndexShape).shape
  have hcs : ∀ c ∈ [will "c"], c.NamesNoWillKey ∧ c.CreatesNoIndexKey := by simpa using hc "c"
  have hin : .str "a" ∈ indexOf s "b" := by decide
  have hk := indexes_kept s hs [will "c"] hcs
  exact ⟨hs, hcs, hk, hin, hk.kept "b" _ hin, by decide⟩

end IntkeyWill
