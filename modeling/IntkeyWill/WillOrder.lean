import IntkeyWill.RegistryOrder

/-!
# The order of will creations

`create_will` appends its testator to the index `WILL_LIST_w` of every witness `w` its
will names, unless the testator is on it, and then writes the will under `WILL_t`.  Two
creations for different testators, neither of whose keys is an index key, write
different wills and append each its own testator, so served the other way round they
leave the same wills, and indexes that hold the same testators in the other order
(`SameIndexes`).  A witness loop that stops part way, at an entry without a string
`public_key` or at an index that is not a list, stops at the same entry in either
order, and each request gets the answer it gets alone.

The argument is one of composition.  `Congr m` says that `m` reads two ledgers so
related alike, `FramesOut k m` that `m` neither reads nor writes the key `k`, and
`Swap m m'` that `m` and `m'` commute up to the order of the indexes, each with the
result it has alone.  Each is proved once for the building blocks (a step that leaves
the ledger, a write, one pass of the witness loop) and carried through `bind`
(`Congr.bind`, `FramesOut.bind`, `Swap.bind`); a creation that gets to the ledger is
the witness loop followed by the write of the will (`creation`, `createWill_shape`).

## Main definitions

* `SameIndexes` — ledgers equal but for the order of the witness indexes.
* `indexList`, `indexStep` — a witness's index as a list, and one pass of the witness
  loop once it has the witness.
* `Congr`, `FramesOut`, `Swap` — the three facts composed through `bind`.
* `creation`, `Call.CreatesStr`, `Call.CreatesApart` — what a creation runs, creations of
  string testators whose keys are not index keys, and two for different testators.
* `runAnswers` — the answers a run gives.

## Main results

* `swap_indexStep`, `swap_addToWillLists` — two witness loops for different testators.
* `swap_creation` — two creations for different testators.
* `creations_order`, `creations_answers` — a batch of creations in any order: the same
  ledger up to the order of the indexes, and the same answers.

## References

`src/sdk/examples/intkey_python/sawtooth_intkey/client_cli/intkey_cli.py`, lines
675–728.
-/

namespace IntkeyWill

open JSON

/-! ### Ledgers equal but for the order of the indexes -/

/-- Two ledgers equal but for the order of the witness indexes. -/
structure SameIndexes (u u' : Store) : Prop where
  other : ∀ k, (∀ w, k ≠ willListPrefix ++ w) → u k = u' k
  index : ∀ w, PendingPerm (u (willListPrefix ++ w)) (u' (willListPrefix ++ w))

theorem SameIndexes.refl (u : Store) : SameIndexes u u := ⟨fun _ _ => rfl, fun _ => .inl rfl⟩

theorem SameIndexes.symm {u u' : Store} (h : SameIndexes u u') : SameIndexes u' u :=
  ⟨fun k hk => (h.other k hk).symm, fun w => (h.index w).symm⟩

theorem SameIndexes.trans {u u' u'' : Store} (h : SameIndexes u u') (h' : SameIndexes u' u'') :
    SameIndexes u u'' :=
  ⟨fun k hk => (h.other k hk).trans (h'.other k hk), fun w => (h.index w).trans (h'.index w)⟩

theorem SameIndexes.put {u u' : Store} (h : SameIndexes u u') (k : String) (v : JSON) :
    SameIndexes (u.put k v) (u'.put k v) := by
  refine ⟨fun k' hk' => ?_, fun w => ?_⟩
  · by_cases e : k' = k <;> simp [e, h.other k' hk']
  · by_cases e : willListPrefix ++ w = k
    · exact .inl (by simp [e])
    · simpa [e] using h.index w

theorem SameIndexes.put_index {u u' : Store} (h : SameIndexes u u') (w : String) {L L' : List JSON}
    (hp : L.Perm L') :
    SameIndexes (u.put (willListPrefix ++ w) (.arr L)) (u'.put (willListPrefix ++ w) (.arr L')) := by
  refine ⟨fun k hk => by simp [hk w, h.other k hk], fun w' => ?_⟩
  by_cases e : w' = w
  · subst e
    exact .inr ⟨L, L', by simp, by simp, hp⟩
  · have hk : willListPrefix ++ w' ≠ willListPrefix ++ w := by simpa [willListPrefix_append_inj] using e
    simpa [hk] using h.index w'

/-! ### One pass of the witness loop -/

/-- The index of the witness `w` as `create_will` extends it, when it is one: with none
stored yet, the empty list. -/
def indexList (u : Store) (w : String) : Option (List JSON) :=
  match u (willListPrefix ++ w) with
  | none => some []
  | some (.arr L) => some L
  | some _ => none

/-- A pass of the witness loop for the testator `t`, once the entry named the witness
`w`: lines 710–717 of `create_will` on the ledger. -/
def indexStep (u : Store) (w t : String) : Store × Except PyErr Unit :=
  match willListAfter ((u (willListPrefix ++ w)).getD (.arr [])) (.str t) with
  | .error e => (u, .error e)
  | .ok none => (u, .ok ())
  | .ok (some v) => (u.put (willListPrefix ++ w) v, .ok ())

/-- A pass of the witness loop raises before it reads the ledger, or is `indexStep`. -/
theorem addToWillList_step (t : String) (wn : JSON) :
    (∃ e, addToWillList Store.client (.str t) wn = fun u => (u, .error e)) ∨
    ∃ w, addToWillList Store.client (.str t) wn = fun u => indexStep u w t := by
  cases hk : getItem wn "public_key" >>= strAdd willListPrefix with
  | error e => exact .inl ⟨e, funext fun u => by rw [addToWillList_run, hk]⟩
  | ok key =>
    obtain ⟨x, -, hx⟩ := except_bind_eq_ok.1 hk
    obtain ⟨w, -, rfl⟩ := strAdd_eq_ok.1 hx
    exact .inr ⟨w, funext fun u => by rw [addToWillList_run, hk]; rfl⟩

/-- On an index that is a list, a pass inserts the testator. -/
theorem indexStep_of_list {u : Store} {w : String} {L : List JSON} (hl : indexList u w = some L)
    (t : String) : indexStep u w t = (u.put (willListPrefix ++ w) (.arr (appendNew L (.str t))), .ok ()) := by
  unfold indexList at hl
  unfold indexStep
  split at hl
  · next h => cases hl; simp [h, willListAfter_arr, appendNew]
  · next L' h =>
    cases hl
    rw [h, Option.getD_some, willListAfter_arr]
    by_cases hin : L.any (pyEq · (.str t))
    · simp [hin, appendNew, Store.put_self h]
    · simp [hin, appendNew]
  · cases hl

@[simp] theorem indexList_put_index (u : Store) (w : String) (L : List JSON) :
    indexList (u.put (willListPrefix ++ w) (.arr L)) w = some L := by
  simp [indexList]

/-- On anything else, a pass writes nothing. -/
theorem indexStep_of_other {u : Store} {w : String} (hl : indexList u w = none) (t : String) :
    (indexStep u w t).1 = u := by
  unfold indexStep
  split
  · rfl
  · rfl
  · next v hv =>
    obtain ⟨L, hL, -⟩ := willListAfter_some hv
    unfold indexList at hl
    cases h : u (willListPrefix ++ w) with
    | none => simp [h] at hl
    | some x => simp only [h, Option.getD_some] at hL; simp [h, hL] at hl

/-- A pass leaves the ledger, or writes the index of its witness. -/
theorem indexStep_eq (u : Store) (w t : String) :
    (∃ r, indexStep u w t = (u, r)) ∨ ∃ v, indexStep u w t = (u.put (willListPrefix ++ w) v, .ok ()) := by
  unfold indexStep
  split
  exacts [.inl ⟨_, rfl⟩, .inl ⟨_, rfl⟩, .inr ⟨_, rfl⟩]

/-- A pass writes only the index of its witness. -/
theorem indexStep_put {k w : String} (hk : k ≠ willListPrefix ++ w) (t : String) (u : Store) (v : JSON) :
    indexStep (u.put k v) w t = ((indexStep u w t).1.put k v, (indexStep u w t).2) := by
  unfold indexStep
  rw [Store.put_apply, if_neg (Ne.symm hk)]
  split
  · rfl
  · rfl
  · exact Prod.ext (Store.put_comm _ hk _ _) rfl

/-! ### Steps read alike on related ledgers -/

/-- Run from two ledgers equal but for the order of the indexes, `m` leaves two such
ledgers, with the same result. -/
def Congr {α : Type} (m : Py Store α) : Prop :=
  ∀ u u', SameIndexes u u' → SameIndexes (m u).1 (m u').1 ∧ (m u).2 = (m u').2

section Congr

variable {α β : Type}

theorem congr_const (r : Except PyErr α) : Congr fun u => (u, r) := fun _ _ h => ⟨h, rfl⟩

theorem Congr.bind {m : Py Store α} {f : α → Py Store β} (hm : Congr m) (hf : ∀ a, Congr (f a)) :
    Congr (m >>= f) := fun u u' h => by
  simp only [Py.run_bind]
  obtain ⟨ha, hr⟩ := hm u u' h
  revert ha hr
  obtain ⟨v, r⟩ := m u
  obtain ⟨v', r'⟩ := m u'
  rintro ha (rfl : r = r')
  cases r with
  | error e => exact ⟨ha, rfl⟩
  | ok a => exact hf a v v' ha

theorem congr_set (k : String) (v : JSON) : Congr (Store.client.set (.str k) v) :=
  fun _ _ h => ⟨h.put k v, rfl⟩

theorem congr_indexStep (w t : String) : Congr fun u => indexStep u w t := fun u u' h => by
  beta_reduce
  rcases h.index w with e | ⟨L, L', hL, hL', hp⟩
  · -- the index is the same: the pass does the same
    unfold indexStep
    rw [e]
    split
    · exact ⟨h, rfl⟩
    · exact ⟨h, rfl⟩
    · exact ⟨h.put _ _, rfl⟩
  · have hl : indexList u w = some L := by simp [indexList, hL]
    have hl' : indexList u' w = some L' := by simp [indexList, hL']
    rw [indexStep_of_list hl, indexStep_of_list hl']
    exact ⟨h.put_index w (perm_appendNew_str hp t), rfl⟩

theorem congr_addToWillList (t : String) (wn : JSON) : Congr (addToWillList Store.client (.str t) wn) := by
  rcases addToWillList_step t wn with ⟨e, h⟩ | ⟨w, h⟩ <;> rw [h]
  exacts [congr_const _, congr_indexStep w t]

theorem congr_addToWillLists (t : String) : ∀ es, Congr (addToWillLists Store.client (.str t) es)
  | [] => congr_const _
  | wn :: es => (congr_addToWillList t wn).bind fun _ => congr_addToWillLists t es

end Congr

/-! ### Steps that leave a key alone -/

/-- `m` neither reads nor writes the key `k`. -/
def FramesOut {α : Type} (k : String) (m : Py Store α) : Prop :=
  ∀ u v, m (u.put k v) = ((m u).1.put k v, (m u).2)

section FramesOut

variable {α β : Type} {k : String}

theorem framesOut_const (r : Except PyErr α) : FramesOut k fun u => (u, r) := fun _ _ => rfl

theorem FramesOut.bind {m : Py Store α} {f : α → Py Store β} (hm : FramesOut k m)
    (hf : ∀ a, FramesOut k (f a)) : FramesOut k (m >>= f) := fun u v => by
  simp only [Py.run_bind, hm u v]
  obtain ⟨x, _ | a⟩ := m u
  · rfl
  · exact hf a x v

theorem framesOut_set {k' : String} (h : k ≠ k') (w : JSON) : FramesOut k (Store.client.set (.str k') w) :=
  fun u v => by simp [Store.put_comm _ h]

theorem framesOut_addToWillList (hk : ∀ w, k ≠ willListPrefix ++ w) (t : String) (wn : JSON) :
    FramesOut k (addToWillList Store.client (.str t) wn) := by
  rcases addToWillList_step t wn with ⟨e, h⟩ | ⟨w, h⟩ <;> rw [h]
  exacts [framesOut_const _, indexStep_put (hk w) t]

theorem framesOut_addToWillLists (hk : ∀ w, k ≠ willListPrefix ++ w) (t : String) :
    ∀ es, FramesOut k (addToWillLists Store.client (.str t) es)
  | [] => framesOut_const _
  | wn :: es => (framesOut_addToWillList hk t wn).bind fun _ => framesOut_addToWillLists hk t es

end FramesOut

/-! ### Steps that commute up to the order of the indexes -/

/-- `m` and `m'` commute up to the order of the indexes, and each gets the result it
gets alone. -/
def Swap {α β : Type} (m : Py Store α) (m' : Py Store β) : Prop :=
  ∀ u, SameIndexes (m' (m u).1).1 (m (m' u).1).1 ∧ (m (m' u).1).2 = (m u).2 ∧ (m' (m u).1).2 = (m' u).2

section Swap

variable {α β γ : Type}

theorem swap_const (r : Except PyErr α) (m : Py Store β) : Swap (fun u => (u, r)) m :=
  fun _ => ⟨.refl _, rfl, rfl⟩

theorem Swap.symm {m : Py Store α} {m' : Py Store β} (h : Swap m m') : Swap m' m :=
  fun u => ⟨(h u).1.symm, (h u).2.2, (h u).2.1⟩

theorem Swap.bind {m : Py Store α} {f : α → Py Store β} {m' : Py Store γ} (hm : Swap m m')
    (hf : ∀ a, Swap (f a) m') (hcf : ∀ a, Congr (f a)) : Swap (m >>= f) m' := fun u => by
  simp only [Py.run_bind]
  obtain ⟨h₁, h₂, h₃⟩ := hm u
  revert h₁ h₂ h₃
  obtain ⟨x, r⟩ := m u
  obtain ⟨y, r'⟩ := m (m' u).1
  rintro h₁ (rfl : r' = r) h₃
  cases r' with
  | error e => exact ⟨h₁, rfl, h₃⟩
  | ok a =>
    -- `f a` run after `m'` and after `m`'s own run commute, and read related ledgers alike
    obtain ⟨g₁, g₂, g₃⟩ := hf a x
    obtain ⟨c₁, c₂⟩ := hcf a _ _ h₁
    exact ⟨g₁.trans c₁, c₂.symm.trans g₂, g₃.trans h₃⟩

/-- A write commutes with a step that neither reads nor writes its key. -/
theorem swap_set {k : String} {m : Py Store β} (hm : FramesOut k m) (v : JSON) :
    Swap (Store.client.set (.str k) v) m :=
  fun u => by
    show SameIndexes (m (u.put k v)).1 ((m u).1.put k v) ∧ (Except.ok () : Except PyErr Unit) = .ok () ∧
      (m (u.put k v)).2 = (m u).2
    rw [hm u v]
    exact ⟨.refl _, rfl, rfl⟩

/-- **Two passes of the witness loop commute**, for different testators: on one index
they insert their testators in either order, and on two indexes they are independent. -/
theorem swap_indexStep {t₁ t₂ : String} (ht : t₁ ≠ t₂) (w₁ w₂ : String) :
    Swap (fun u => indexStep u w₁ t₁) (fun u => indexStep u w₂ t₂) := fun u => by
  beta_reduce
  by_cases hw : w₁ = w₂
  · subst hw
    cases hl : indexList u w₁ with
    | some L =>
      have e₁ := indexStep_of_list hl t₁
      have e₂ := indexStep_of_list hl t₂
      refine ⟨?_, ?_, ?_⟩ <;>
        simp only [e₁, e₂, indexStep_of_list (indexList_put_index _ _ _), Store.put_put]
      exact (SameIndexes.refl u).put_index w₁ (appendNew_comm_perm L ht)
    | none =>
      refine ⟨?_, ?_, ?_⟩ <;> simp only [indexStep_of_other hl]
      exact .refl _
  · -- two indexes: each pass leaves the other's alone
    have hk : willListPrefix ++ w₁ ≠ willListPrefix ++ w₂ := by simpa [willListPrefix_append_inj] using hw
    rcases indexStep_eq u w₁ t₁ with ⟨r₁, e₁⟩ | ⟨v₁, e₁⟩ <;> rcases indexStep_eq u w₂ t₂ with ⟨r₂, e₂⟩ | ⟨v₂, e₂⟩ <;>
      refine ⟨?_, ?_, ?_⟩ <;>
      simp only [e₁, e₂, indexStep_put hk, indexStep_put (Ne.symm hk), Store.put_comm _ hk] <;>
      exact .refl _

theorem swap_addToWillList {t₁ t₂ : String} (ht : t₁ ≠ t₂) (wn₁ wn₂ : JSON) :
    Swap (addToWillList Store.client (.str t₁) wn₁) (addToWillList Store.client (.str t₂) wn₂) := by
  rcases addToWillList_step t₁ wn₁ with ⟨e, h⟩ | ⟨w₁, h⟩ <;> rw [h]
  · exact swap_const _ _
  · rcases addToWillList_step t₂ wn₂ with ⟨e', h'⟩ | ⟨w₂, h'⟩ <;> rw [h']
    exacts [(swap_const _ _).symm, swap_indexStep ht w₁ w₂]

theorem swap_addToWillLists_pass {t₁ t₂ : String} (ht : t₁ ≠ t₂) (wn₂ : JSON) :
    ∀ es₁, Swap (addToWillLists Store.client (.str t₁) es₁) (addToWillList Store.client (.str t₂) wn₂)
  | [] => swap_const _ _
  | wn :: es => (swap_addToWillList ht wn wn₂).bind (fun _ => swap_addToWillLists_pass ht wn₂ es)
      fun _ => congr_addToWillLists t₁ es

/-- **Two witness loops commute**, for different testators. -/
theorem swap_addToWillLists {t₁ t₂ : String} (ht : t₁ ≠ t₂) (es₁ : List JSON) :
    ∀ es₂, Swap (addToWillLists Store.client (.str t₁) es₁) (addToWillLists Store.client (.str t₂) es₂)
  | [] => (swap_const _ _).symm
  | wn :: es => ((swap_addToWillLists_pass ht wn es₁).symm.bind
      (fun _ => (swap_addToWillLists ht es₁ es).symm) fun _ => congr_addToWillLists t₂ es).symm

end Swap

/-! ### Creations -/

/-- What `create_will` runs once it has the testator `t`, the will `v` to store and the
witness entries `es`: the witness loop, then the write of the will. -/
def creation (t : String) (v : JSON) (es : List JSON) : Py Store Response :=
  addToWillLists Store.client (.str t) es >>= fun _ =>
    Store.client.set (.str (willPrefix ++ t)) v >>= fun _ => pure (wrapResponse processing 200)

/-- A `create_will` request whose testator is a string: answered without touching the
ledger, or a `creation`; a will without witnesses has no witness loop. -/
theorem createWill_shape (req : Request) {body : JSON} {t : String} (hreq : CreateRequest req body (.str t)) :
    (∃ r, createWill Store.client req = fun u => (u, r)) ∨
    ∃ v es, createWill Store.client req = creation t v es := by
  rcases createWill_front req with ⟨r, -, hno, -⟩ | ⟨body', pubkey, hreq', h⟩
  · exact absurd hreq (hno _ _)
  obtain ⟨rfl, rfl⟩ := hreq.unique hreq'
  have e : createWill Store.client req = fun u =>
      Py.andThen (saveWill Store.client body (.str t) u) fun _ => pure (wrapResponse processing 200) :=
    funext (h Store.client)
  rw [e]
  cases hn : noWitnesses body with
  | error err => exact .inl ⟨.error err, funext fun u => by simp [saveWill_run, hn]⟩
  | ok b =>
  cases b with
  | true =>
    cases hs : setItem body "status" (.str "valid") with
    | error err => exact .inl ⟨.error err, funext fun u => by simp [saveWill_run, hn, hs]⟩
    | ok v => exact .inr ⟨v, [], funext fun u => by simp [saveWill_run, hn, hs, strAdd, creation]; rfl⟩
  | false =>
    cases hes : getItem body "witnesses" >>= pyIter with
    | error err => exact .inl ⟨.error err, funext fun u => by simp [saveWill_run, hn, hes]⟩
    | ok es =>
      refine .inr ⟨body, es, funext fun u => ?_⟩
      simp only [saveWill_run, hn, hes, creation, Py.run_bind]
      obtain ⟨x, _ | _⟩ := addToWillLists Store.client (.str t) es u <;> rfl

theorem congr_creation (t : String) (v : JSON) (es : List JSON) : Congr (creation t v es) :=
  (congr_addToWillLists t es).bind fun _ => (congr_set _ _).bind fun _ => congr_const _

/-- A creation leaves alone every key but the indexes and its own will key. -/
theorem framesOut_creation {k : String} (hk : ∀ w, k ≠ willListPrefix ++ w) {t : String}
    (ht : k ≠ willPrefix ++ t) (v : JSON) (es : List JSON) : FramesOut k (creation t v es) :=
  (framesOut_addToWillLists hk t es).bind fun _ => (framesOut_set ht v).bind fun _ => framesOut_const _

/-- The will key of a testator whose key does not start with `LIST_` is no index key. -/
theorem willKey_ne_index {t : String} (ht : ∀ w, t ≠ "LIST_" ++ w) (w : String) :
    willPrefix ++ t ≠ willListPrefix ++ w := by
  rw [willListPrefix_append, Ne, willPrefix_append_inj]
  exact ht w

/-- **Two creations commute**, for different testators whose keys are not index keys: the
same wills, indexes with the same testators, and each creation answered as alone. -/
theorem swap_creation {t₁ t₂ : String} (ht : t₁ ≠ t₂) (h₁ : ∀ w, t₁ ≠ "LIST_" ++ w)
    (h₂ : ∀ w, t₂ ≠ "LIST_" ++ w) (v₁ v₂ : JSON) (es₁ es₂ : List JSON) :
    Swap (creation t₁ v₁ es₁) (creation t₂ v₂ es₂) := by
  have hne : willPrefix ++ t₁ ≠ willPrefix ++ t₂ := fun e => ht (willPrefix_append_inj.1 e)
  -- the write of each will commutes with all of the other creation
  have hw₁ : Swap (Store.client.set (.str (willPrefix ++ t₁)) v₁ >>= fun _ => pure (wrapResponse processing 200))
      (creation t₂ v₂ es₂) :=
    (swap_set (framesOut_creation (willKey_ne_index h₁) hne v₂ es₂) v₁).bind (fun _ => swap_const _ _)
      fun _ => congr_const _
  have hw₂ : Swap (Store.client.set (.str (willPrefix ++ t₂)) v₂ >>= fun _ => pure (wrapResponse processing 200))
      (addToWillLists Store.client (.str t₁) es₁) :=
    (swap_set (framesOut_addToWillLists (willKey_ne_index h₂) t₁ es₁) v₂).bind (fun _ => swap_const _ _)
      fun _ => congr_const _
  -- the witness loop of the first commutes with the second creation
  have hl : Swap (addToWillLists Store.client (.str t₁) es₁) (creation t₂ v₂ es₂) :=
    ((swap_addToWillLists (Ne.symm ht) es₂ es₁).bind (fun _ => hw₂)
      fun _ => (congr_set _ _).bind fun _ => congr_const _).symm
  exact hl.bind (fun _ => hw₁) fun _ => (congr_set _ _).bind fun _ => congr_const _

/-! ### Batches of creations -/

/-- A `create_will` request whose testator, when it gets to the ledger, is a string that
does not start with `LIST_`. -/
def Call.CreatesStr : Call → Prop
  | .createWill req => ∀ body pubkey, CreateRequest req body pubkey →
      ∃ t, pubkey = .str t ∧ ∀ w, t ≠ "LIST_" ++ w
  | _ => False

/-- Two creations for different testators. -/
def Call.CreatesApart (c c' : Call) : Prop := ∀ t t', c.Creates t → c'.Creates t' → t ≠ t'

theorem Call.CreatesApart.symm {c c' : Call} (h : c.CreatesApart c') : c'.CreatesApart c :=
  fun t t' h₁ h₂ => Ne.symm (h t' t h₂ h₁)

/-- A creation of a string testator is answered without touching the ledger, or is a
`creation`. -/
theorem Call.creation_step {c : Call} (hc : c.CreatesStr) :
    (∃ r, c.step = fun u => (u, r)) ∨
    ∃ t v es, (∀ w, t ≠ "LIST_" ++ w) ∧ c.Creates t ∧ c.step = creation t v es := by
  cases c with
  | registerPubkey req | approvePublicKey req | witnessSign req => cases hc
  | createWill req =>
    rcases createWill_front req with ⟨r, -, -, h⟩ | ⟨body, pubkey, hreq, -⟩
    · exact .inl ⟨r, funext (h Store.client)⟩
    obtain ⟨t, rfl, ht⟩ := hc body pubkey hreq
    rcases createWill_shape req hreq with ⟨r, e⟩ | ⟨v, es, e⟩
    · exact .inl ⟨r, e⟩
    · exact .inr ⟨t, v, es, ht, ⟨body, hreq⟩, e⟩

theorem Call.congr_step {c : Call} (hc : c.CreatesStr) : Congr c.step := by
  rcases Call.creation_step hc with ⟨r, e⟩ | ⟨t, v, es, -, -, e⟩ <;> rw [e]
  exacts [congr_const r, congr_creation t v es]

theorem Call.swap_step {c c' : Call} (hc : c.CreatesStr) (hc' : c'.CreatesStr) (ha : c.CreatesApart c') :
    Swap c.step c'.step := by
  rcases Call.creation_step hc with ⟨r, e⟩ | ⟨t, v, es, ht, hct, e⟩ <;> rw [e]
  · exact swap_const r _
  rcases Call.creation_step hc' with ⟨r', e'⟩ | ⟨t', v', es', ht', hct', e'⟩ <;> rw [e']
  · exact (swap_const r' _).symm
  · exact swap_creation (ha t t' hct hct') ht ht' v v' es es'

/-- **The order of will creations**: a batch of `create_will` requests, each for a string
testator whose key does not start with `LIST_`, no two for the same testator, leaves in
every order the same wills and witness indexes holding the same testators. -/
theorem creations_order {cs cs' : List Call} (hp : cs.Perm cs') (s : Store)
    (hc : ∀ c ∈ cs, c.CreatesStr) (hd : cs.Pairwise Call.CreatesApart) :
    SameIndexes (runStore s cs) (runStore s cs') := by
  induction hp with
  | nil => exact .refl _
  | cons c _ ih =>
    exact (Call.congr_step (hc c (List.mem_cons_self _ _)) _ _
      (ih (fun c' h => hc c' (List.mem_cons_of_mem _ h)) (List.pairwise_cons.1 hd).2)).1
  | swap c c' cs =>
    exact (Call.swap_step (hc c (by simp)) (hc c' (by simp))
      ((List.pairwise_cons.1 hd).1 c (List.mem_cons_self _ _)).symm _).1
  | trans hp₁ _ ih₁ ih₂ =>
    exact (ih₁ hc hd).trans (ih₂ (fun c h => hc c (hp₁.mem_iff.2 h))
      ((hp₁.pairwise_iff fun h => Call.CreatesApart.symm h).1 hd))

/-- `b` and then `a` write wills naming the witness `c`; served the other way round, the
wills are the same and the index of `c` holds both. -/
theorem creations_order_two :
    let will := fun t : String => Call.createWill ⟨"POST", some (.obj [("public_key", .str t),
      ("witnesses", .arr [.obj [("public_key", .str "c")]])]), []⟩
    (∀ c ∈ [will "b", will "a"], c.CreatesStr) ∧ [will "b", will "a"].Pairwise Call.CreatesApart ∧
      SameIndexes (runStore Store.empty [will "b", will "a"]) (runStore Store.empty [will "a", will "b"]) := by
  intro will
  have hreq : ∀ t body pubkey, CreateRequest ⟨"POST", some (.obj [("public_key", .str t),
      ("witnesses", .arr [.obj [("public_key", .str "c")]])]), []⟩ body pubkey → pubkey = .str t :=
    fun t body pubkey h => by
      have h₀ : CreateRequest ⟨"POST", some (.obj [("public_key", .str t),
          ("witnesses", .arr [.obj [("public_key", .str "c")]])]), []⟩ _ (.str t) := ⟨rfl, rfl, rfl, rfl⟩
      exact (h₀.unique h).2.symm
  have hc : ∀ c ∈ [will "b", will "a"], c.CreatesStr := by
    simp only [List.mem_cons, List.mem_singleton, List.not_mem_nil, or_false]
    rintro c (rfl | rfl) <;> refine fun body pubkey h => ⟨_, hreq _ body pubkey h, fun w e => ?_⟩ <;>
      simp [String.ext_iff] at e
  have hd : [will "b", will "a"].Pairwise Call.CreatesApart :=
    List.pairwise_pair.2 fun t t' ⟨_, h⟩ ⟨_, h'⟩ => by
      rw [JSON.str.inj (hreq _ _ _ h), JSON.str.inj (hreq _ _ _ h')]
      decide
  exact ⟨hc, hd, creations_order (List.Perm.swap _ _ _) Store.empty hc hd⟩

/-- The order itself is not kept: the index of `c` lists `a` and `b` in the order their
wills came. -/
example :
    let will := fun t : String => Call.createWill ⟨"POST", some (.obj [("public_key", .str t),
      ("witnesses", .arr [.obj [("public_key", .str "c")]])]), []⟩
    runStore Store.empty [will "b", will "a"] (willListPrefix ++ "c") = some (.arr [.str "a", .str "b"]) ∧
      runStore Store.empty [will "a", will "b"] (willListPrefix ++ "c") = some (.arr [.str "b", .str "a"]) := by
  decide

/-! ### The answers -/

/-- The calls of a run served from `s`, the most recent first, each with its answer. -/
def runAnswers (s : Store) : List Call → List (Call × Except PyErr Response)
  | [] => []
  | c :: cs => (c, (c.step (runStore s cs)).2) :: runAnswers s cs

/-- **Creations are answered alike in every order**: in a batch of creations as in
`creations_order`, each request gets the same answer whatever the order it is served in. -/
theorem creations_answers {cs cs' : List Call} (hp : cs.Perm cs') (s : Store)
    (hc : ∀ c ∈ cs, c.CreatesStr) (hd : cs.Pairwise Call.CreatesApart) :
    (runAnswers s cs).Perm (runAnswers s cs') := by
  induction hp with
  | nil => exact .refl _
  | cons c hp ih =>
    have hc' : ∀ c' ∈ _, Call.CreatesStr c' := fun c' h => hc c' (List.mem_cons_of_mem _ h)
    have hd' := (List.pairwise_cons.1 hd).2
    -- the rest of the batch leaves related ledgers, on which `c` is answered alike
    have e := (Call.congr_step (hc c (List.mem_cons_self _ _)) _ _ (creations_order hp s hc' hd')).2
    simp only [runAnswers, e]
    exact (ih hc' hd').cons _
  | swap c c' cs =>
    -- each of the two is answered as if the other had not been served
    obtain ⟨-, e, e'⟩ := Call.swap_step (hc c (by simp)) (hc c' (by simp))
      ((List.pairwise_cons.1 hd).1 c (List.mem_cons_self _ _)).symm (runStore s cs)
    simp only [runAnswers, runStore]
    rw [e, e']
    exact .swap _ _ _
  | trans hp₁ _ ih₁ ih₂ =>
    exact (ih₁ hc hd).trans (ih₂ (fun c h => hc c (hp₁.mem_iff.2 h))
      ((hp₁.pairwise_iff fun h => Call.CreatesApart.symm h).1 hd))

/-- `a` writes a will naming `c` and `b` one whose second entry names no witness: in
either order, `a` is answered with success and `b` with the `KeyError` of its entry. -/
theorem creations_answers_two :
    let wa := Call.createWill ⟨"POST", some (.obj [("public_key", .str "a"),
      ("witnesses", .arr [.obj [("public_key", .str "c")]])]), []⟩
    let wb := Call.createWill ⟨"POST", some (.obj [("public_key", .str "b"),
      ("witnesses", .arr [.obj [("public_key", .str "c")], .obj []])]), []⟩
    (∀ c ∈ [wb, wa], c.CreatesStr) ∧ [wb, wa].Pairwise Call.CreatesApart ∧
      (runAnswers Store.empty [wb, wa]).Perm (runAnswers Store.empty [wa, wb]) := by
  intro wa wb
  have ha : ∀ body pubkey, CreateRequest ⟨"POST", some (.obj [("public_key", .str "a"),
      ("witnesses", .arr [.obj [("public_key", .str "c")]])]), []⟩ body pubkey → pubkey = .str "a" :=
    fun body pubkey h => by obtain rfl := Except.ok.inj h.json; exact (Except.ok.inj h.key).symm
  have hb : ∀ body pubkey, CreateRequest ⟨"POST", some (.obj [("public_key", .str "b"),
      ("witnesses", .arr [.obj [("public_key", .str "c")], .obj []])]), []⟩ body pubkey → pubkey = .str "b" :=
    fun body pubkey h => by obtain rfl := Except.ok.inj h.json; exact (Except.ok.inj h.key).symm
  have hc : ∀ c ∈ [wb, wa], c.CreatesStr := by
    simp only [List.mem_cons, List.mem_singleton, List.not_mem_nil, or_false]
    rintro c (rfl | rfl)
    · exact fun body pubkey h => ⟨"b", hb body pubkey h, fun w e => by simp [String.ext_iff] at e⟩
    · exact fun body pubkey h => ⟨"a", ha body pubkey h, fun w e => by simp [String.ext_iff] at e⟩
  have hd : [wb, wa].Pairwise Call.CreatesApart :=
    List.pairwise_pair.2 fun t t' ⟨_, h⟩ ⟨_, h'⟩ => by
      rw [JSON.str.inj (hb _ _ h), JSON.str.inj (ha _ _ h')]
      decide
  exact ⟨hc, hd, creations_answers (List.Perm.swap _ _ _) Store.empty hc hd⟩

end IntkeyWill
