import IntkeyWill.Signing

/-!
# Valid wills

A will is meant to become `valid` only when its witnesses have signed it.  Three things
in the code let a stored will be valid otherwise: `create_will` stores the body it is
given, status and entry statuses included; `register_pubkey` stores a record under any
key, a will key too; and `witness_sign` counts a re-signature twice (see
`IntkeyWill.Signing`).  With none of the three in a run, every valid will's entries
have all been signed since the will was created, each by a `witness_sign` for the
witness it names; and the signature that completes a will marks it `valid`.

## Main definitions

* `SignedSince`, `NoResign` — the signatures of a will since its creation.
* `Call.NamesNoWillKey`, `Call.CreatesUnsigned` — the requests the result excludes.
* `WillOk`, `WillsOk` — what a run keeps of every stored will.

## Main results

* `WillsOk.registry_step`, `WillsOk.createWill_step`, `WillsOk.witnessSign_step` — one
  request keeps every will.
* `willsOk_run` — every run of the excluded kind keeps them.
* `completing_signature_validates` — in such a run, the signature after which every
  entry is signed marks the will `valid`.
-/

namespace IntkeyWill

open JSON

/-- A `witness_sign` for the witness `w` on the will of `t` has succeeded since the
last successful `create_will` for `t`. -/
def SignedSince (t w : String) : List Call → Prop := Since (·.Signs t w) (·.Creates t)

/-- No witness signs a will a second time since the will was created. -/
def NoResign : List Call → Prop
  | [] => True
  | c :: cs => (∀ t w, c.Signs t w → c.Succeeds cs → ¬ SignedSince t w cs) ∧ NoResign cs

/-- No `register_pubkey` request that reaches the ledger stores a record under a will
key. -/
def Call.NamesNoWillKey : Call → Prop
  | .registerPubkey req => ∀ record k, RegisterRequest req record (.str k) → ¬ IsWillKey k
  | _ => True

/-- A `create_will` body that names witnesses is not `valid` and has no signed entry. -/
def Call.CreatesUnsigned : Call → Prop
  | .createWill req => ∀ body p es, CreateRequest req body p → WitnessEntries body es →
      body.field "status" ≠ some (.str "valid") ∧ ∀ e ∈ es, entrySigned e = false
  | _ => True

/-! ### The history of a will -/

section History

variable {t w : String} {cs : List Call}

theorem signedSince_cons_registry {c : Call} (hc : c.IsRegistry) :
    SignedSince t w (c :: cs) ↔ SignedSince t w cs :=
  since_cons_of_not (hc.not_signs t w) (hc.not_creates t)

theorem signedSince_cons_create {req : Request} {body : JSON} {t' : String}
    (hreq : CreateRequest req body (.str t')) (hs : (Call.createWill req).Succeeds cs) :
    SignedSince t w (.createWill req :: cs) ↔ t ≠ t' ∧ SignedSince t w cs := by
  simp [SignedSince, since_cons_of_succeeds hs, creates_iff hreq]

theorem signedSince_cons_sign {req : Request} {t' w' : String} (hreq : SignRequest req t' w')
    (hs : (Call.witnessSign req).Succeeds cs) :
    SignedSince t w (.witnessSign req :: cs) ↔ t = t' ∧ w = w' ∨ SignedSince t w cs := by
  simp [SignedSince, since_cons_of_succeeds hs, signs_iff hreq]

end History

/-! ### Stored wills -/

/-- What a stored will keeps, given the witnesses who signed it since its creation:
every signed entry names one of them, and a valid will with entries has them all
signed. -/
structure WillOk (signed : String → Prop) (W : JSON) : Prop where
  signedBy : ∀ es, W.field "witnesses" = some (.arr es) →
    ∀ e ∈ es, entrySigned e → ∃ w, entryNames w e ∧ signed w
  valid : ∀ es, W.field "witnesses" = some (.arr es) → W.field "status" = some (.str "valid") →
    es ≠ [] → ∀ e ∈ es, entrySigned e

/-- Every stored will of the run, with the signatures since its creation. -/
def WillsOk (cs : List Call) : Prop :=
  ∀ t W, run cs (willPrefix ++ t) = some W → WillOk (SignedSince t · cs) W

section Values

variable {P Q : String → Prop} {W : JSON}

/-- A list, as the witness loop writes one, is no will. -/
theorem willOk_arr (P : String → Prop) (L : List JSON) : WillOk P (.arr L) :=
  ⟨fun _ h => by simp [field] at h, fun _ h => by simp [field] at h⟩

theorem WillOk.mono (h : WillOk P W) (hPQ : ∀ w, P w → Q w) : WillOk Q W :=
  ⟨fun es hw e he hs => (h.signedBy es hw e he hs).imp fun w hw => ⟨hw.1, hPQ w hw.2⟩, h.valid⟩

/-- `approve_public_key` on a will key marks the will `approved`. -/
theorem WillOk.approve (h : WillOk P W) {W' : JSON}
    (hset : setItem W "status" (.str "approved") = .ok W') : WillOk P W' := by
  obtain ⟨kvs, rfl, rfl⟩ := setItem_eq_ok.1 hset
  have hw : (JSON.obj (setField "status" (.str "approved") kvs)).field "witnesses" = (JSON.obj kvs).field "witnesses" := by
    simp [field, lookup_setField_of_ne]
  exact ⟨fun es hes => h.signedBy es (hw ▸ hes), fun _ _ hst => by simp [field, lookup_setField_self] at hst⟩

/-- A will created without witnesses. -/
theorem willOk_of_noWitnesses (P : String → Prop) {body body' : JSON}
    (hn : noWitnesses body = .ok true) (hset : setItem body "status" (.str "valid") = .ok body') :
    WillOk P body' := by
  obtain ⟨kvs, rfl, rfl⟩ := setItem_eq_ok.1 hset
  have hnil : ∀ es, (JSON.obj (setField "status" (.str "valid") kvs)).field "witnesses" = some (.arr es) →
      es = [] := fun es h => noWitnesses_arr hn (by simpa [field, lookup_setField_of_ne] using h)
  exact ⟨fun es h e he => by simp [hnil es h] at he, fun es h _ hne => absurd (hnil es h) hne⟩

/-- A will created with entries, unsigned and not `valid`. -/
theorem willOk_of_entries (P : String → Prop) {body : JSON} {es : List JSON}
    (hes : WitnessEntries body es)
    (hu : body.field "status" ≠ some (.str "valid") ∧ ∀ e ∈ es, entrySigned e = false) :
    WillOk P body := by
  refine ⟨fun es' hw e he hs => ?_, fun _ _ hst => absurd hst hu.1⟩
  have h2 := hes.2
  rw [getItem_eq_ok_iff.2 hw] at h2
  obtain rfl : es' = es := by simpa [pyIter] using h2
  simp [hu.2 e he] at hs

/-- No entry that names a witness who has not signed since the will was created is
signed. -/
theorem WillOk.fresh {kvs : List (String × JSON)} {es : List JSON} {w : String}
    (h : WillOk P (.obj kvs)) (hw : kvs.lookup "witnesses" = some (.arr es)) (hnew : ¬ P w) :
    es.countP (fun e => entrySigned e && entryNames w e) = 0 := by
  refine List.countP_eq_zero.2 fun e he hse => ?_
  simp only [Bool.and_eq_true] at hse
  obtain ⟨w', hn', hP⟩ := h.signedBy es hw e he hse.1
  exact hnew (entryNames_inj hse.2 hn' ▸ hP)

/-- Signing for a witness who has not signed since the will was created: the count is
exact, so the will is marked `valid` only when every entry is signed. -/
theorem WillOk.sign {kvs : List (String × JSON)} {es : List JSON} {w : String}
    (h : WillOk P (.obj kvs)) (hw : kvs.lookup "witnesses" = some (.arr es)) (hnew : ¬ P w) :
    WillOk (fun w' => w' = w ∨ P w') (signedWill kvs es w) := by
  have hW : (JSON.obj kvs).field "witnesses" = some (.arr es) := hw
  have hfresh := h.fresh hw hnew
  refine ⟨fun es' hes' e he hs => ?_, fun es' hes' hst hne => ?_⟩ <;>
    rw [signedWill_witnesses, Option.some.injEq, JSON.arr.injEq] at hes' <;> subst hes'
  · obtain ⟨e₀, he₀, rfl⟩ := List.mem_map.1 he
    rw [entrySigned_markSigned] at hs
    by_cases hn : entryNames w e₀
    · exact ⟨w, by rwa [entryNames_markSigned], .inl rfl⟩
    · obtain ⟨w', hn', hP⟩ := h.signedBy es hW e₀ he₀ (by simpa [hn] using hs)
      exact ⟨w', by rwa [entryNames_markSigned], .inr hP⟩
  · rw [signedWill_status] at hst
    split at hst
    · rename_i hc
      rw [signCount_eq, hfresh, Nat.add_zero] at hc
      exact List.countP_eq_length.1 (by simpa using hc)
    · have hall := h.valid es hW hst (by simpa using hne)
      intro e he
      obtain ⟨e₀, he₀, rfl⟩ := List.mem_map.1 he
      simp [entrySigned_markSigned, hall e₀ he₀]

end Values

/-! ### One request -/

section Step

variable {cs : List Call}

/-- A request that leaves the will of `t` as it was, or overwrites it with a list, and
keeps its signatures keeps it. -/
theorem WillsOk.cons_of_eq (h : WillsOk cs) {c : Call} {t : String}
    (hsince : ∀ w, SignedSince t w cs → SignedSince t w (c :: cs))
    (hval : run (c :: cs) (willPrefix ++ t) = run cs (willPrefix ++ t) ∨
      ∃ L, run (c :: cs) (willPrefix ++ t) = some (.arr L)) {W : JSON}
    (hW : run (c :: cs) (willPrefix ++ t) = some W) : WillOk (SignedSince t · (c :: cs)) W := by
  rcases hval with hv | ⟨L, hv⟩
  · exact (h t W (hv ▸ hW)).mono hsince
  · obtain rfl := Option.some.inj (hW.symm.trans hv)
    exact willOk_arr _ L

/-- `register_pubkey` and `approve_public_key` keep every will, when no registration
names a will key. -/
theorem WillsOk.registry_step (h : WillsOk cs) {c : Call} (hc : c.IsRegistry)
    (hkey : c.NamesNoWillKey) : WillsOk (c :: cs) := by
  intro t W hW
  have hsince (w : String) : SignedSince t w cs → SignedSince t w (c :: cs) :=
    (signedSince_cons_registry hc).2
  have hk : willPrefix ++ t ≠ keyNeedReview := fun e => not_isWillKey_keyNeedReview (e ▸ isWillKey_willPrefix t)
  cases c with
  | registerPubkey req =>
    exact h.cons_of_eq hsince (.inl (registerPubkey_frame req (run cs) hk
      fun record hr => hkey record _ hr (isWillKey_willPrefix t))) hW
  | approvePublicKey req =>
    by_cases ha : ApproveRequest req (willPrefix ++ t)
    · rcases approvePublicKey_cases req (run cs) with
        ⟨r, hr, -⟩ | ⟨k, body, e, hreq, ⟨b, hb, hset⟩, -, hr⟩ | ⟨k, body, l, L, hreq, ⟨b, hb, hset⟩, -, -, hr⟩
      · exact h.cons_of_eq hsince (.inl (by simp [Call.step, Call.handle, hr])) hW
      all_goals
        obtain rfl := hreq.unique ha
        simp only [run_cons, Call.step, Call.handle, hr, Store.put_apply, if_neg hk, if_true,
          Option.some.injEq] at hW
        subst hW
        exact ((h t b hb).approve hset).mono hsince
    · exact h.cons_of_eq hsince (.inl (approvePublicKey_frame req (run cs) hk ha)) hW
  | _ => exact hc.elim

/-- `create_will` keeps every will, when its body is not `valid` and has no signed
entry. -/
theorem WillsOk.createWill_step (h : WillsOk cs) {req : Request}
    (hu : (Call.createWill req).CreatesUnsigned) : WillsOk (.createWill req :: cs) := by
  intro t W hW
  rcases createWill_cases req (run cs) with
    ⟨r, hr, hs⟩ | ⟨body, p, es, e, -, -, -, hr⟩ | ⟨body, t', body', hreq, hn, hset, hr⟩ |
      ⟨body, t', es, s', hreq, hes, hl, hr⟩
  · exact h.cons_of_eq (fun w => (since_cons_of_not_succeeds (by simpa [Call.Succeeds, Call.step, Call.handle, hr] using hs)).2)
      (.inl (by simp [Call.step, Call.handle, hr])) hW
  · exact h.cons_of_eq
      (fun w => (since_cons_of_not_succeeds (by simp [Call.Succeeds, Call.step, Call.handle, hr])).2)
      (by simpa [Call.step, Call.handle, hr] using addToWillLists_values p es (run cs) (willPrefix ++ t)) hW
  all_goals
    have hs : (Call.createWill req).Succeeds cs := by
      simp only [Call.Succeeds, Call.step, Call.handle, hr]
      exact succeeded_wrapResponse (by simp [processing])
  · by_cases e : t = t'
    · subst e
      simp only [run_cons, Call.step, Call.handle, hr, Store.put_apply, if_true, Option.some.injEq] at hW
      subst hW
      exact willOk_of_noWitnesses _ hn hset
    · exact h.cons_of_eq (fun w hw => (signedSince_cons_create hreq hs).2 ⟨e, hw⟩)
        (.inl (by simp [Call.step, Call.handle, hr, willPrefix_append_inj, e])) hW
  · by_cases e : t = t'
    · subst e
      simp only [run_cons, Call.step, Call.handle, hr, Store.put_apply, if_true, Option.some.injEq] at hW
      subst hW
      exact willOk_of_entries _ hes (hu body _ es hreq hes)
    · have hv := addToWillLists_values (.str t') es (run cs) (willPrefix ++ t)
      rw [hl] at hv
      exact h.cons_of_eq (fun w hw => (signedSince_cons_create hreq hs).2 ⟨e, hw⟩)
        (by simpa [Call.step, Call.handle, hr, willPrefix_append_inj, e] using hv) hW

/-- `witness_sign` keeps every will, when the witness has not signed it since its
creation. -/
theorem WillsOk.witnessSign_step (h : WillsOk cs) {req : Request}
    (hres : ∀ t w, (Call.witnessSign req).Signs t w → (Call.witnessSign req).Succeeds cs →
      ¬ SignedSince t w cs) : WillsOk (.witnessSign req :: cs) := by
  intro t W hW
  rcases witnessSign_cases req (run cs) with ⟨r, hr, hs⟩ | ⟨t', w', W₀, W', hreq, hW₀, hsign, hr⟩
  · exact h.cons_of_eq (fun w => (since_cons_of_not_succeeds (by simpa [Call.Succeeds, Call.step, Call.handle, hr] using hs)).2)
      (.inl (by simp [Call.step, Call.handle, hr])) hW
  · obtain ⟨kvs, es, rfl, hw, -, -, rfl⟩ := signBody_eq_some.1 hsign
    have hs : (Call.witnessSign req).Succeeds cs := by
      simp only [Call.Succeeds, Call.step, Call.handle, hr]
      refine succeeded_wrapResponse ?_
      unfold signedWill
      split <;> simp
    by_cases e : t = t'
    · subst e
      simp only [run_cons, Call.step, Call.handle, hr, Store.put_apply, if_true, Option.some.injEq] at hW
      subst hW
      refine ((h t _ hW₀).sign hw (hres t w' hreq hs)).mono fun w hw' => ?_
      rw [signedSince_cons_sign hreq hs]
      exact hw'.imp (fun hw'' => ⟨rfl, hw''⟩) id
    · exact h.cons_of_eq (fun w hw => (signedSince_cons_sign hreq hs).2 (.inr hw))
        (.inl (by simp [Call.step, Call.handle, hr, willPrefix_append_inj, e])) hW

end Step

/-- Every run in which no registration names a will key, no will is created `valid` or
with signed entries, and no witness signs a will twice keeps every will. -/
theorem willsOk_run (cs : List Call) (hkey : ∀ c ∈ cs, c.NamesNoWillKey)
    (hu : ∀ c ∈ cs, c.CreatesUnsigned) (hres : NoResign cs) : WillsOk cs := by
  induction cs with
  | nil => intro t W hW; simp at hW
  | cons c cs ih =>
    have ih' := ih (fun c' hc' => hkey c' (List.mem_cons_of_mem c hc'))
      (fun c' hc' => hu c' (List.mem_cons_of_mem c hc')) hres.2
    cases c with
    | registerPubkey req => exact ih'.registry_step trivial (hkey _ (List.mem_cons_self _ _))
    | approvePublicKey req => exact ih'.registry_step trivial (hkey _ (List.mem_cons_self _ _))
    | createWill req => exact ih'.createWill_step (hu _ (List.mem_cons_self _ _))
    | witnessSign req => exact ih'.witnessSign_step hres.1

/-- `create_will` stores a body that says `valid` as it is: the will is valid, its
witness has not signed. -/
theorem create_valid_unsigned :
    let c := Call.createWill ⟨"POST", some (.obj [("public_key", .str "a"), ("status", .str "valid"),
      ("witnesses", .arr [.obj [("public_key", .str "b")]])]), []⟩
    run [c] "WILL_a" = some (.obj [("public_key", .str "a"), ("status", .str "valid"),
      ("witnesses", .arr [.obj [("public_key", .str "b")]])]) ∧ ¬ SignedSince "a" "b" [c] :=
  ⟨by decide, by simp [SignedSince, since_cons]⟩

/-- **Valid wills are signed**: in a run in which no registration names a will key, no
will is created `valid` or with signed entries, and no witness signs a will twice,
every entry of a stored `valid` will with entries is signed and names a witness whose
`witness_sign` succeeded since the will was created. -/
theorem valid_will_signed (cs : List Call) (hkey : ∀ c ∈ cs, c.NamesNoWillKey)
    (hu : ∀ c ∈ cs, c.CreatesUnsigned) (hres : NoResign cs) {t : String} {W : JSON}
    {es : List JSON} (hW : run cs (willPrefix ++ t) = some W)
    (hst : W.field "status" = some (.str "valid")) (hws : W.field "witnesses" = some (.arr es))
    (hne : es ≠ []) : ∀ e ∈ es, entrySigned e ∧ ∃ w, entryNames w e ∧ SignedSince t w cs := by
  have hok := willsOk_run cs hkey hu hres t W hW
  intro e he
  have hs := hok.valid es hws hst hne e he
  exact ⟨hs, hok.signedBy es hws e he hs⟩

theorem valid_will_signed_once :
    let create := Call.createWill ⟨"POST", some (.obj [("public_key", .str "a"),
      ("witnesses", .arr [.obj [("public_key", .str "b")]])]), []⟩
    let sign := Call.witnessSign ⟨"GET", none, [("public_key", "a"), ("witness", "b")]⟩
    let es := [JSON.obj [("public_key", .str "b"), ("status", .str "signed")]]
    let W := JSON.obj [("public_key", .str "a"), ("witnesses", .arr es), ("status", .str "valid")]
    (∀ c ∈ [sign, create], c.NamesNoWillKey) ∧ (∀ c ∈ [sign, create], c.CreatesUnsigned) ∧
    NoResign [sign, create] ∧ run [sign, create] (willPrefix ++ "a") = some W ∧
    W.field "status" = some (.str "valid") ∧ W.field "witnesses" = some (.arr es) ∧ es ≠ [] ∧
    ∀ e ∈ es, entrySigned e ∧ ∃ w, entryNames w e ∧ SignedSince "a" w [sign, create] := by
  intro create sign es W
  have hkey : ∀ c ∈ [sign, create], c.NamesNoWillKey := by simp [sign, create, Call.NamesNoWillKey]
  have hu : ∀ c ∈ [sign, create], c.CreatesUnsigned := by
    simp only [List.mem_cons, List.mem_singleton, List.not_mem_nil, or_false, forall_eq_or_imp,
      forall_eq, sign, create, Call.CreatesUnsigned, true_and]
    intro body p es' hreq hes
    obtain rfl : body = _ := Except.ok.inj hreq.json.symm
    obtain rfl : es' = _ := Except.ok.inj hes.2.symm
    exact ⟨by decide, by decide⟩
  have hres : NoResign [sign, create] := by simp [NoResign, SignedSince, since_cons, sign, create]
  have hW : run [sign, create] (willPrefix ++ "a") = some W := by decide
  exact ⟨hkey, hu, hres, hW, rfl, rfl, by simp [es],
    valid_will_signed _ hkey hu hres hW rfl rfl (by simp [es])⟩

/-- **A signature that completes a will validates it**: in a run in which no
registration names a will key, no will is created `valid` or with signed entries, and
no witness signs a will twice, a successful `witness_sign` after which every entry of
the will is signed leaves the will `valid`. -/
theorem completing_signature_validates (cs : List Call) (hkey : ∀ c ∈ cs, c.NamesNoWillKey)
    (hu : ∀ c ∈ cs, c.CreatesUnsigned) {req : Request} (hres : NoResign (.witnessSign req :: cs))
    {t w : String} (hreq : SignRequest req t w) (hs : (Call.witnessSign req).Succeeds cs) {W : JSON}
    {es : List JSON} (hW : run (.witnessSign req :: cs) (willPrefix ++ t) = some W)
    (hws : W.field "witnesses" = some (.arr es)) (hall : ∀ e ∈ es, entrySigned e) :
    W.field "status" = some (.str "valid") := by
  have hok := willsOk_run cs hkey hu hres.2
  rcases witnessSign_cases req (run cs) with ⟨r, hr, hns⟩ | ⟨t', w', W₀, W', hreq', hW₀, hsign, hr⟩
  · exact absurd (by simpa [Call.Succeeds, Call.step, Call.handle, hr] using hs) hns
  obtain ⟨rfl, rfl⟩ := hreq.unique hreq'
  obtain ⟨kvs, es₀, rfl, hw₀, -, -, rfl⟩ := signBody_eq_some.1 hsign
  simp only [run_cons, Call.step, Call.handle, hr, Store.put_apply, if_true, Option.some.injEq] at hW
  subst hW
  rw [signedWill_witnesses, Option.some.injEq, JSON.arr.injEq] at hws
  subst hws
  -- the witness signs no entry twice, so `sign_count` is the number of signed entries
  have hcount : signCount w es₀ = es₀.length := by
    rw [signCount_eq, (hok t _ hW₀).fresh hw₀ (hres.1 t w hreq hs), Nat.add_zero,
      List.countP_eq_length.2 hall, List.length_map]
  rw [signedWill_status, if_pos hcount]

theorem completing_signature_validates_once :
    let create := Call.createWill ⟨"POST", some (.obj [("public_key", .str "a"),
      ("witnesses", .arr [.obj [("public_key", .str "b")]])]), []⟩
    let req : Request := ⟨"GET", none, [("public_key", "a"), ("witness", "b")]⟩
    let es := [JSON.obj [("public_key", .str "b"), ("status", .str "signed")]]
    let W := JSON.obj [("public_key", .str "a"), ("witnesses", .arr es), ("status", .str "valid")]
    (∀ c ∈ [create], c.NamesNoWillKey) ∧ (∀ c ∈ [create], c.CreatesUnsigned) ∧
    NoResign [.witnessSign req, create] ∧ SignRequest req "a" "b" ∧
    (Call.witnessSign req).Succeeds [create] ∧ run [.witnessSign req, create] (willPrefix ++ "a") = some W ∧
    W.field "witnesses" = some (.arr es) ∧ (∀ e ∈ es, entrySigned e) ∧
    W.field "status" = some (.str "valid") := by
  intro create req es W
  have hkey : ∀ c ∈ [create], c.NamesNoWillKey := by simp [create, Call.NamesNoWillKey]
  have hu : ∀ c ∈ [create], c.CreatesUnsigned := by
    simp only [List.mem_singleton, forall_eq, create, Call.CreatesUnsigned]
    intro body p es' hreq hes
    obtain rfl : body = _ := Except.ok.inj hreq.json.symm
    obtain rfl : es' = _ := Except.ok.inj hes.2.symm
    exact ⟨by decide, by decide⟩
  have hres : NoResign [.witnessSign req, create] := by
    simp [NoResign, SignedSince, since_cons, req, create]
  have hreq : SignRequest req "a" "b" := ⟨rfl, rfl, rfl⟩
  have hs : (Call.witnessSign req).Succeeds [create] := by
    rw [Call.Succeeds, show ((Call.witnessSign req).step (run [create])).2 = .ok (wrapResponse W 200) from rfl]
    exact succeeded_wrapResponse (by simp [W])
  have hW : run [.witnessSign req, create] (willPrefix ++ "a") = some W := by decide
  exact ⟨hkey, hu, hres, hreq, hs, hW, rfl, by decide,
    completing_signature_validates [create] hkey hu hres hreq hs hW rfl (by decide)⟩

end IntkeyWill
