import IntkeyWill.Delayed

/-!
# The order in which witnesses sign

`witness_sign` reads the will, marks the entries that name the witness `signed`, and
writes the will back, marked `valid` when `sign_count` reaches the number of entries.
Two signatures of one will commute when they are for different witnesses whose entries
are not signed yet.  The entries end up marked alike in both orders, the first of the
two does not complete the will, and the second counts the entries signed before both
and the entries naming either witness.  So a batch of `witness_sign` requests, no two for
the same testator and witness, leaves the same ledger in whatever order it is served
(`signatures_commute`).

The condition on the entries is needed.  An entry already signed is counted twice when
its witness signs again, so such a signature can complete a will in one order and not in
the other.

## Main definitions

* `signedOr` — the will `witness_sign` leaves for a witness.
* `signAt` — the ledger `witness_sign` leaves.
* `UnsignedIn`, `Unsigned` — no entry of a will, or of a stored will, that names the
  witness is signed.

## Main results

* `signedOr_comm` — two signatures of one will commute.
* `signAt_comm` — two signatures commute on the ledger.
* `signatures_commute` — every order of a batch of signatures leaves the same ledger.

## References

`src/sdk/examples/intkey_python/sawtooth_intkey/client_cli/intkey_cli.py`, lines
807–880.
-/

namespace IntkeyWill

open JSON

/-! ### Entries marked for two witnesses -/

theorem isEntry_markSigned {e : JSON} (h : IsEntry e) (w : String) : IsEntry (markSigned w e) := by
  obtain ⟨kvs, rfl, hk⟩ := h
  by_cases hw : kvs.lookup "public_key" = some (.str w)
  · refine ⟨setField "status" (.str "signed") kvs, by simp [markSigned, hw], ?_⟩
    rwa [lookup_setField_of_ne (show "public_key" ≠ "status" by decide)]
  · exact ⟨kvs, by simp [markSigned, hw], hk⟩

/-- Marking the entries for two witnesses comes to the same in either order. -/
theorem markSigned_comm (w₁ w₂ : String) (e : JSON) :
    markSigned w₂ (markSigned w₁ e) = markSigned w₁ (markSigned w₂ e) := by
  cases e with
  | obj kvs =>
    by_cases e : w₁ = w₂
    · rw [e]
    by_cases h₁ : kvs.lookup "public_key" = some (.str w₁)
    · have h₂ : ¬ kvs.lookup "public_key" = some (.str w₂) := fun h => e (by simpa [h₁] using h)
      simp [markSigned, h₁, h₂, e, lookup_setField_of_ne]
    · by_cases h₂ : kvs.lookup "public_key" = some (.str w₂)
      · simp [markSigned, h₁, h₂, Ne.symm e, lookup_setField_of_ne]
      · simp [markSigned, h₁, h₂]
  | _ => rfl

/-- No entry that names `w` is signed. -/
def FreshFor (w : String) (es : List JSON) : Prop := ∀ e ∈ es, entryNames w e → entrySigned e = false

section Count

variable {w₁ w₂ : String} {es : List JSON}

/-- `sign_count` of a signature after another whose entries were unsigned: the entries
signed before both, and the entries that name either witness. -/
theorem signCount_markSigned (h₁ : FreshFor w₁ es) :
    signCount w₂ (es.map (markSigned w₁))
      = es.countP entrySigned + es.countP (entryNames w₁) + es.countP (entryNames w₂) := by
  induction es with
  | nil => rfl
  | cons e es ih =>
    have he := h₁ e (List.mem_cons_self e es)
    have ih := ih fun e' h' => h₁ e' (List.mem_cons_of_mem e h')
    simp only [signCount, List.map_cons, List.countP_cons, entrySigned_markSigned,
      entryNames_markSigned] at ih he ⊢
    cases h : entryNames w₁ e <;> cases h' : entrySigned e <;> simp_all <;> omega

/-- The entries signed and those naming two different witnesses, none of them both. -/
theorem countP_entries_le (hne : w₁ ≠ w₂) (h₁ : FreshFor w₁ es) (h₂ : FreshFor w₂ es) :
    es.countP entrySigned + es.countP (entryNames w₁) + es.countP (entryNames w₂) ≤ es.length := by
  induction es with
  | nil => rfl
  | cons e es ih =>
    have ih := ih (fun e' h' => h₁ e' (List.mem_cons_of_mem e h')) fun e' h' => h₂ e' (List.mem_cons_of_mem e h')
    have he₁ := h₁ e (List.mem_cons_self e es)
    have he₂ := h₂ e (List.mem_cons_self e es)
    have hn : ¬ (entryNames w₁ e ∧ entryNames w₂ e) := fun h => hne (entryNames_inj h.1 h.2)
    simp only [List.countP_cons, List.length_cons]
    cases h : entryNames w₁ e <;> cases h' : entryNames w₂ e <;> cases h'' : entrySigned e <;>
      simp_all <;> omega

/-- A signature does not complete a will on which an entry naming another witness is
unsigned. -/
theorem signCount_ne_length (hne : w₁ ≠ w₂) (h₁ : FreshFor w₁ es) (h₂ : FreshFor w₂ es)
    (hw₂ : es.any (entryNames w₂)) : signCount w₁ es ≠ es.length := by
  have hpos : 0 < es.countP (entryNames w₂) := List.countP_pos_iff.2 (List.any_eq_true.1 hw₂)
  have := countP_entries_le hne h₁ h₂
  unfold signCount
  omega

end Count

/-! ### Two signatures of one will -/

/-- The will `witness_sign` leaves for the witness `w`: the one it writes back, or the
will as it was when it writes nothing. -/
def signedOr (W : JSON) (w : String) : JSON :=
  match signBody W w with
  | .ok (some W') => W'
  | _ => W

/-- A will that is not a dict with a list of entries is left as it is. -/
theorem signedOr_of_not_entries {W : JSON}
    (h : ¬ ∃ kvs es, W = .obj kvs ∧ kvs.lookup "witnesses" = some (.arr es) ∧ ∀ e ∈ es, IsEntry e)
    (w : String) : signedOr W w = W := by
  unfold signedOr
  cases hs : signBody W w with
  | error e => rfl
  | ok r =>
    cases r with
    | none => rfl
    | some W' =>
      obtain ⟨kvs, es, hW, hw, hent, -⟩ := signBody_eq_some.1 hs
      exact absurd ⟨kvs, es, hW, hw, hent⟩ h

theorem signedOr_obj {kvs : List (String × JSON)} {es : List JSON}
    (hw : kvs.lookup "witnesses" = some (.arr es)) (hent : ∀ e ∈ es, IsEntry e) (w : String) :
    signedOr (.obj kvs) w = if es.any (entryNames w) then signedWill kvs es w else .obj kvs := by
  unfold signedOr
  rw [signBody_entries w hw hent]
  by_cases h : es.any (entryNames w) <;> simp [h]

/-- The will written back is a dict whose entries are the marked ones. -/
theorem signedWill_obj (kvs : List (String × JSON)) (es : List JSON) (w : String) :
    ∃ kvs', signedWill kvs es w = .obj kvs' ∧
      kvs'.lookup "witnesses" = some (.arr (es.map (markSigned w))) := by
  unfold signedWill
  split <;> exact ⟨_, rfl, by simp [lookup_setField_self, lookup_setField_of_ne]⟩

theorem setField_setField (k : String) (v v' : JSON) :
    ∀ kvs : List (String × JSON), setField k v (setField k v' kvs) = setField k v kvs
  | [] => by simp [setField]
  | (k', _) :: kvs => by
    by_cases e : k' = k
    · simp [setField, e]
    · simp [setField, e, setField_setField k v v' kvs]

/-- `witness_sign` rewrites the whole `witnesses` member. -/
theorem signedWill_setField (kvs : List (String × JSON)) (v : JSON) (es : List JSON) (w : String) :
    signedWill (setField "witnesses" v kvs) es w = signedWill kvs es w := by
  simp only [signedWill, setField_setField]

/-- A signature that does not complete the will only marks its entries. -/
theorem signedWill_of_ne {kvs : List (String × JSON)} {es : List JSON} {w : String}
    (h : signCount w es ≠ es.length) :
    signedWill kvs es w = .obj (setField "witnesses" (.arr (es.map (markSigned w))) kvs) := by
  simp [signedWill, h]

/-- A second signature of a witness no entry names leaves the will the first left. -/
theorem signedOr_signedWill_of_not {kvs : List (String × JSON)} {es : List JSON} {w₁ w₂ : String}
    (hent : ∀ e ∈ es, IsEntry e) (h : es.any (entryNames w₂) = false) :
    signedOr (signedWill kvs es w₁) w₂ = signedWill kvs es w₁ := by
  obtain ⟨kvs', e, hw⟩ := signedWill_obj kvs es w₁
  have hent' : ∀ e ∈ es.map (markSigned w₁), IsEntry e := by
    simpa using fun e he => isEntry_markSigned (hent e he) w₁
  rw [e, signedOr_obj hw hent', if_neg]
  simpa [List.any_map, Function.comp_def, entryNames_markSigned] using h

/-- No entry of the will that names `w` is signed. -/
def UnsignedIn (W : JSON) (w : String) : Prop :=
  ∀ kvs es, W = .obj kvs → kvs.lookup "witnesses" = some (.arr es) → FreshFor w es

/-- **Two signatures of one will commute**, for two witnesses whose entries are unsigned. -/
theorem signedOr_comm {W : JSON} {w₁ w₂ : String} (hne : w₁ ≠ w₂) (h₁ : UnsignedIn W w₁)
    (h₂ : UnsignedIn W w₂) : signedOr (signedOr W w₁) w₂ = signedOr (signedOr W w₂) w₁ := by
  by_cases hW : ∃ kvs es, W = .obj kvs ∧ kvs.lookup "witnesses" = some (.arr es) ∧ ∀ e ∈ es, IsEntry e
  swap
  · simp only [signedOr_of_not_entries hW]
  obtain ⟨kvs, es, rfl, hw, hent⟩ := hW
  have f₁ := h₁ kvs es rfl hw
  have f₂ := h₂ kvs es rfl hw
  simp only [signedOr_obj hw hent]
  cases a₁ : es.any (entryNames w₁) <;> cases a₂ : es.any (entryNames w₂)
  · simp only [Bool.false_eq_true, ite_false, signedOr_obj hw hent, a₁, a₂]
  · simp [signedOr_obj hw hent, a₁, a₂, signedOr_signedWill_of_not hent a₁]
  · simp [signedOr_obj hw hent, a₁, a₂, signedOr_signedWill_of_not hent a₂]
  · -- both sign: neither completes the will first, and the second counts alike
    have hent₁ : ∀ e ∈ es.map (markSigned w₁), IsEntry e := by
      simpa using fun e he => isEntry_markSigned (hent e he) w₁
    have hent₂ : ∀ e ∈ es.map (markSigned w₂), IsEntry e := by
      simpa using fun e he => isEntry_markSigned (hent e he) w₂
    have any₁ : (es.map (markSigned w₂)).any (entryNames w₁) = true := by
      simpa [List.any_map, Function.comp_def, entryNames_markSigned] using a₁
    have any₂ : (es.map (markSigned w₁)).any (entryNames w₂) = true := by
      simpa [List.any_map, Function.comp_def, entryNames_markSigned] using a₂
    simp only [ite_true, signedWill_of_ne (signCount_ne_length hne f₁ f₂ a₂),
      signedWill_of_ne (signCount_ne_length hne.symm f₂ f₁ a₁),
      signedOr_obj (lookup_setField_self _ _ kvs) hent₁, signedOr_obj (lookup_setField_self _ _ kvs) hent₂,
      any₁, any₂, signedWill_setField]
    have hc : signCount w₂ (es.map (markSigned w₁)) = signCount w₁ (es.map (markSigned w₂)) := by
      rw [signCount_markSigned f₁, signCount_markSigned f₂]
      omega
    have hm : (es.map (markSigned w₁)).map (markSigned w₂) = (es.map (markSigned w₂)).map (markSigned w₁) := by
      simp only [List.map_map, Function.comp_def, markSigned_comm w₁ w₂]
    simp only [signedWill, hc, hm, List.length_map]

/-! ### Signatures on the ledger -/

/-- The ledger `witness_sign` leaves, once it has the testator `t` and the witness `w`. -/
def signAt (s : Store) (t w : String) : Store :=
  match s (willPrefix ++ t) with
  | none => s
  | some W => s.put (willPrefix ++ t) (signedOr W w)

theorem signAt_apply (s : Store) (t w k : String) :
    signAt s t w k = if k = willPrefix ++ t then (s k).map (signedOr · w) else s k := by
  unfold signAt
  cases h : s (willPrefix ++ t) with
  | none => by_cases e : k = willPrefix ++ t <;> simp [e, h]
  | some W => by_cases e : k = willPrefix ++ t <;> simp [e, h]

theorem signWill_fst (t w : String) (s : Store) : (signWill Store.client t w s).1 = signAt s t w := by
  rw [signWill_reads Store.readsFrom]
  unfold signAt
  cases hW : s (willPrefix ++ t) with
  | none => rfl
  | some W =>
    dsimp only
    unfold signedOr
    cases signBody W w with
    | error e => exact (Store.put_self hW).symm
    | ok r => cases r <;> simp [Store.put_self hW]

/-- No entry of the stored will of `t` that names `w` is signed. -/
def Unsigned (s : Store) (t w : String) : Prop := ∀ W, s (willPrefix ++ t) = some W → UnsignedIn W w

/-- **Two signatures commute on the ledger**, for different testators, or for different
witnesses of one will whose entries are unsigned. -/
theorem signAt_comm {s : Store} {t₁ w₁ t₂ w₂ : String} (hne : (t₁, w₁) ≠ (t₂, w₂))
    (h₁ : Unsigned s t₁ w₁) (h₂ : Unsigned s t₂ w₂) :
    signAt (signAt s t₁ w₁) t₂ w₂ = signAt (signAt s t₂ w₂) t₁ w₁ := by
  unfold signAt
  by_cases ht : t₁ = t₂
  · -- one will, two witnesses
    subst ht
    have hw : w₁ ≠ w₂ := fun h => hne (h ▸ rfl)
    cases hs : s (willPrefix ++ t₁) with
    | none => simp [hs]
    | some W => simp [hs, signedOr_comm hw (h₁ W hs) (h₂ W hs)]
  · have hk : willPrefix ++ t₁ ≠ willPrefix ++ t₂ := fun e => ht (willPrefix_append_inj.1 e)
    cases hs₁ : s (willPrefix ++ t₁) <;> cases hs₂ : s (willPrefix ++ t₂) <;>
      simp [hs₁, hs₂, hk, Ne.symm hk, Store.put_comm _ hk]

/-- A signature for another testator or witness keeps the entries naming `w` unsigned. -/
theorem UnsignedIn.signedOr {W : JSON} {w w' : String} (h : UnsignedIn W w) (hne : w' ≠ w) :
    UnsignedIn (signedOr W w') w := by
  by_cases hW : ∃ kvs es, W = .obj kvs ∧ kvs.lookup "witnesses" = some (.arr es) ∧ ∀ e ∈ es, IsEntry e
  swap
  · rwa [signedOr_of_not_entries hW]
  obtain ⟨kvs, es, rfl, hw, hent⟩ := hW
  rw [signedOr_obj hw hent]
  split
  · obtain ⟨kvs', e, hw'⟩ := signedWill_obj kvs es w'
    rw [e]
    rintro _ es' ⟨⟩ hes'
    rw [hw', Option.some.injEq, JSON.arr.injEq] at hes'
    subst hes'
    intro e' he' hn
    obtain ⟨e₀, he₀, rfl⟩ := List.mem_map.1 he'
    rw [entryNames_markSigned] at hn
    have hn' : entryNames w' e₀ = false :=
      Bool.eq_false_iff.2 fun h' => hne (entryNames_inj h' hn)
    simp [entrySigned_markSigned, hn', h kvs es rfl hw e₀ he₀ hn]
  · exact h

theorem Unsigned.signAt {s : Store} {t w t' w' : String} (h : Unsigned s t w) (hne : (t', w') ≠ (t, w)) :
    Unsigned (signAt s t' w') t w := by
  intro W hW
  rw [signAt_apply] at hW
  split at hW
  · rename_i e
    obtain rfl : t = t' := willPrefix_append_inj.1 e
    obtain ⟨W₀, h₀, rfl⟩ := Option.map_eq_some'.1 hW
    exact (h W₀ h₀).signedOr fun hw => hne (hw ▸ rfl)
  · exact h W hW

/-! ### Requests -/

/-- What a `witness_sign` request leaves of the ledger: the ledger, when it is answered
before reading it, or the ledger its signature leaves. -/
theorem witnessSign_step (req : Request) :
    ((∀ t w, ¬ SignRequest req t w) ∧ ∀ s, ((Call.witnessSign req).step s).1 = s) ∨
    ∃ t w, SignRequest req t w ∧ ∀ s, ((Call.witnessSign req).step s).1 = signAt s t w := by
  rcases witnessSign_front req with ⟨r, -, hn, h⟩ | ⟨t, w, ht, h⟩
  · exact .inl ⟨hn, fun s => by simp [Call.step, Call.handle, h]⟩
  · exact .inr ⟨t, w, ht, fun s => by rw [Call.step, Call.handle, h, signWill_fst]⟩

/-- No two of the calls sign for the same testator and witness. -/
def SignsApart (c c' : Call) : Prop := ∀ t w, c.Signs t w → ¬ c'.Signs t w

theorem SignsApart.symm {c c' : Call} (h : SignsApart c c') : SignsApart c' c :=
  fun t w h' h'' => h t w h'' h'

theorem witnessSign_comm {r₁ r₂ : Request} (hd : SignsApart (.witnessSign r₁) (.witnessSign r₂))
    {s : Store} (h₁ : ∀ t w, SignRequest r₁ t w → Unsigned s t w)
    (h₂ : ∀ t w, SignRequest r₂ t w → Unsigned s t w) :
    ((Call.witnessSign r₂).step ((Call.witnessSign r₁).step s).1).1
      = ((Call.witnessSign r₁).step ((Call.witnessSign r₂).step s).1).1 := by
  rcases witnessSign_step r₁ with ⟨-, e₁⟩ | ⟨t₁, w₁, hr₁, e₁⟩ <;>
  rcases witnessSign_step r₂ with ⟨-, e₂⟩ | ⟨t₂, w₂, hr₂, e₂⟩ <;> simp only [e₁, e₂]
  refine signAt_comm (fun e => ?_) (h₁ t₁ w₁ hr₁) (h₂ t₂ w₂ hr₂)
  obtain ⟨rfl, rfl⟩ := Prod.mk.inj e
  exact hd t₁ w₁ hr₁ hr₂

theorem Unsigned.witnessSign {s : Store} {t w : String} (h : Unsigned s t w) {req : Request}
    (hreq : ¬ (Call.witnessSign req).Signs t w) : Unsigned ((Call.witnessSign req).step s).1 t w := by
  rcases witnessSign_step req with ⟨-, e⟩ | ⟨t', w', hr, e⟩ <;> rw [e]
  · exact h
  · exact h.signAt fun he => hreq (by obtain ⟨rfl, rfl⟩ := Prod.mk.inj he; exact hr)

/-- A batch of `witness_sign` requests, none signing for `t` and `w`, keeps the entries
naming `w` of the will of `t` unsigned. -/
theorem Unsigned.runStore {s : Store} {t w : String} (h : Unsigned s t w) :
    ∀ {cs : List Call}, (∀ c ∈ cs, ∃ req, c = .witnessSign req) → (∀ c ∈ cs, ¬ c.Signs t w) →
      Unsigned (runStore s cs) t w
  | [], _, _ => h
  | c :: cs, hsign, hn => by
    obtain ⟨req, rfl⟩ := hsign c (List.mem_cons_self c cs)
    exact (Unsigned.runStore h (fun c' h' => hsign c' (List.mem_cons_of_mem _ h'))
      fun c' h' => hn c' (List.mem_cons_of_mem _ h')).witnessSign (hn _ (List.mem_cons_self _ _))

/-- **Signatures commute**: a batch of `witness_sign` requests, no two signing for the
same testator and witness, served on a ledger where no entry they name is signed, leaves
the same ledger in every order. -/
theorem signatures_commute {cs cs' : List Call} (hp : cs.Perm cs') {s : Store}
    (hsign : ∀ c ∈ cs, ∃ req, c = .witnessSign req) (hd : cs.Pairwise SignsApart)
    (hs : ∀ c ∈ cs, ∀ t w, c.Signs t w → Unsigned s t w) : runStore s cs = runStore s cs' := by
  induction hp with
  | nil => rfl
  | cons c _ ih =>
    exact congrArg (fun u => (c.step u).1) (ih (fun c' h => hsign c' (List.mem_cons_of_mem _ h))
      (List.pairwise_cons.1 hd).2 fun c' h => hs c' (List.mem_cons_of_mem _ h))
  | swap c c' cs =>
    obtain ⟨r, rfl⟩ := hsign c (by simp)
    obtain ⟨r', rfl⟩ := hsign c' (by simp)
    obtain ⟨hc', hd'⟩ := List.pairwise_cons.1 hd
    have hc := (List.pairwise_cons.1 hd').1
    -- both signatures still find their entries unsigned after the rest of the batch
    have hu : ∀ c₀ ∈ Call.witnessSign r' :: .witnessSign r :: cs, (∀ c ∈ cs, SignsApart c₀ c) →
        ∀ t w, c₀.Signs t w → Unsigned (runStore s cs) t w := fun c₀ h₀ ha t w hsw =>
      (hs c₀ h₀ t w hsw).runStore (fun c h => hsign c (by simp [h])) fun c hc hc₀ => ha c hc t w hsw hc₀
    exact witnessSign_comm (hc' _ (List.mem_cons_self _ _)).symm (hu _ (by simp) hc)
      (hu _ (by simp) fun c h => hc' c (List.mem_cons_of_mem _ h))
  | trans hp₁ _ ih₁ ih₂ =>
    refine (ih₁ hsign hd hs).trans (ih₂ (fun c h => hsign c (hp₁.mem_iff.2 h))
      ((hp₁.pairwise_iff fun h => SignsApart.symm h).1 hd) fun c h => hs c (hp₁.mem_iff.2 h))

/-- `b` and `c` sign `a`'s will, in both orders. -/
theorem signatures_commute_two :
    let s := Store.empty.put (willPrefix ++ "a") (.obj [("public_key", .str "a"),
      ("witnesses", .arr [.obj [("public_key", .str "b")], .obj [("public_key", .str "c")]])])
    let sb := Call.witnessSign ⟨"GET", none, [("public_key", "a"), ("witness", "b")]⟩
    let sc := Call.witnessSign ⟨"GET", none, [("public_key", "a"), ("witness", "c")]⟩
    [sb, sc].Perm [sc, sb] ∧ (∀ c ∈ [sb, sc], ∃ req, c = .witnessSign req) ∧
      [sb, sc].Pairwise SignsApart ∧ (∀ c ∈ [sb, sc], ∀ t w, c.Signs t w → Unsigned s t w) ∧
      runStore s [sb, sc] = runStore s [sc, sb] := by
  intro s sb sc
  have hsign : ∀ c ∈ [sb, sc], ∃ req, c = .witnessSign req := by
    simp only [List.mem_cons, List.mem_singleton, List.not_mem_nil, or_false]
    rintro c (rfl | rfl) <;> exact ⟨_, rfl⟩
  have hd : [sb, sc].Pairwise SignsApart := by
    refine List.pairwise_pair.2 fun t w h h' => ?_
    have e₁ : some "b" = some w := h.witness
    have e₂ : some "c" = some w := h'.witness
    exact absurd (e₁.trans e₂.symm) (by decide)
  -- no entry of the will is signed
  have hs : ∀ c ∈ [sb, sc], ∀ t w, c.Signs t w → Unsigned s t w := by
    rintro c - t w - W hW kvs es rfl hl e he -
    by_cases ht : willPrefix ++ t = willPrefix ++ "a"
    · simp only [s, Store.put_apply, ht, if_true, Option.some.injEq] at hW
      cases hW
      obtain rfl : [JSON.obj [("public_key", .str "b")], .obj [("public_key", .str "c")]] = es :=
        JSON.arr.inj (Option.some.inj hl)
      simp only [List.mem_cons, List.mem_singleton, List.not_mem_nil, or_false] at he
      rcases he with rfl | rfl <;> rfl
    · simp [s, ht] at hW
  exact ⟨List.Perm.swap _ _ _, hsign, hd, hs, signatures_commute (List.Perm.swap _ _ _) hsign hd hs⟩

/-- Without the condition on the entries the order matters.  `x` has signed `a`'s will
already and signs again, and `y` signs: served after `y`'s, the second signature of `x`
is counted twice and completes the will; served before it, it does not. -/
example :
    let s := Store.empty.put (willPrefix ++ "a") (.obj [("public_key", .str "a"),
      ("witnesses", .arr [.obj [("public_key", .str "x"), ("status", .str "signed")],
        .obj [("public_key", .str "y")], .obj [("public_key", .str "z")]])])
    let sx := Call.witnessSign ⟨"GET", none, [("public_key", "a"), ("witness", "x")]⟩
    let sy := Call.witnessSign ⟨"GET", none, [("public_key", "a"), ("witness", "y")]⟩
    (runStore s [sx, sy] (willPrefix ++ "a")).bind (·.field "status") = some (.str "valid") ∧
      (runStore s [sy, sx] (willPrefix ++ "a")).bind (·.field "status") = none := by
  decide

end IntkeyWill
