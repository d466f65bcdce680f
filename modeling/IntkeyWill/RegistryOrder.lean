import IntkeyWill.Delayed

/-!
# The order of registry requests

`register_pubkey` appends the key it registers to the pending-review list unless the
key is on it, and `approve_public_key` erases the key it approves from the list.  An
approval writes only the record of its own key and erases only its own key, so two
approvals commute (`approved_comm`), and so do an approval and a registration of
another key (`registered_approved_comm`).  Two registrations append their keys in the
order they come, so the pending list remembers that order: served the other way round
they leave the same ledger but for the order of the pending list (`SamePending`,
`registered_comm`).  Every registry step keeps two ledgers so related
(`SamePending.registered`, `SamePending.approved`).

So a batch of registry requests in which no key is registered by one request and named
by another leaves, in any order, the same records and a pending list with the same keys
(`registry_order`), and a batch of approvals leaves the same ledger in any order
(`approvals_commute`).  What the order decides is only the order in which
`list_need_approve` shows the pending records.

## Main definitions

* `registered`, `dropPending`, `approved` — what a registration and an approval of a
  string key write, in closed form.
* `PendingPerm`, `SamePending` — ledgers equal but for the order of the pending list.
* `Call.RegistryStr`, `Call.RegistryApart` — registry requests of string keys other than
  `KEY_NEED_REVIEW`, and two of them that can be swapped.

## Main results

* `registerPubkey_step`, `approvePublicKey_step` — the handlers write the closed forms.
* `registered_comm`, `registered_approved_comm`, `approved_comm` — two steps swapped.
* `registry_order`, `approvals_commute` — a batch served in any order.

## References

`src/sdk/examples/intkey_python/sawtooth_intkey/client_cli/intkey_cli.py`, lines
521–576 and 636–673.
-/

namespace IntkeyWill

open JSON

/-! ### Pending lists as sets -/

theorem appendNew_str (ys : List JSON) (k : String) :
    appendNew ys (.str k) = if JSON.str k ∈ ys then ys else ys ++ [.str k] := by
  simp [appendNew]

/-- Two keys inserted in either order give the same keys. -/
theorem appendNew_comm_perm (ys : List JSON) {a b : String} (h : a ≠ b) :
    (appendNew (appendNew ys (.str a)) (.str b)).Perm (appendNew (appendNew ys (.str b)) (.str a)) := by
  by_cases ha : JSON.str a ∈ ys <;> by_cases hb : JSON.str b ∈ ys <;>
    simp [appendNew_str, ha, hb, h, Ne.symm h, List.perm_append_comm]
  · -- neither key is on the list: the two are appended in either order
    simpa using (List.Perm.swap (JSON.str b) (JSON.str a) []).append_left ys

theorem appendNew_erase {ys : List JSON} {a b : String} (h : a ≠ b) :
    (appendNew ys (.str a)).erase (.str b) = appendNew (ys.erase (.str b)) (.str a) := by
  have hm : JSON.str a ∈ ys.erase (.str b) ↔ JSON.str a ∈ ys := List.mem_erase_of_ne (by simpa using h)
  by_cases ha : JSON.str a ∈ ys
  · simp [appendNew_str, ha, hm]
  · by_cases hb : JSON.str b ∈ ys
    · simp [appendNew_str, ha, hm, List.erase_append_left _ hb]
    · simp [appendNew_str, ha, hb, hm, List.erase_of_not_mem hb, Ne.symm h]

theorem perm_appendNew_str {ys ys' : List JSON} (hp : ys.Perm ys') (k : String) :
    (appendNew ys (.str k)).Perm (appendNew ys' (.str k)) := by
  by_cases h : JSON.str k ∈ ys
  · simp [appendNew_str, h, hp.mem_iff.1 h, hp]
  · simp [appendNew_str, h, mt hp.mem_iff.2 h, hp.append_right]

/-! ### What a registration writes -/

/-- The pending list `register_pubkey` extends, when it is one: with none stored yet, or
`None` stored, the empty list. -/
def pendingList (u : Store) : Option (List JSON) :=
  match pendingOf u with
  | .null => some []
  | .arr L => some L
  | _ => none

/-- What a registration of the string key `k` with the record `record` leaves: the
pending list `pendingAfter` computes and the record, or the ledger as it was when the
pending list refuses the key. -/
def registered (u : Store) (record : JSON) (k : String) : Store :=
  match pendingAfter (pendingOf u) (.str k) with
  | .ok L => (u.put keyNeedReview L).put k record
  | .error _ => u

@[simp] theorem pendingOf_put_ne {k : String} (h : k ≠ keyNeedReview) (u : Store) (v : JSON) :
    pendingOf (u.put k v) = pendingOf u := by
  simp [pendingOf, Ne.symm h]

@[simp] theorem pendingList_put_ne {k : String} (h : k ≠ keyNeedReview) (u : Store) (v : JSON) :
    pendingList (u.put k v) = pendingList u := by
  simp [pendingList, pendingOf_put_ne h]

@[simp] theorem pendingList_put_arr (u : Store) (L : List JSON) :
    pendingList (u.put keyNeedReview (.arr L)) = some L := rfl

/-- On a pending list, a registration inserts its key. -/
theorem registered_of_list {u : Store} {L : List JSON} (hl : pendingList u = some L) (record : JSON)
    (k : String) : registered u record k = (u.put keyNeedReview (.arr (appendNew L (.str k)))).put k record := by
  unfold registered
  unfold pendingList at hl
  split at hl
  · next h => cases hl; rw [h, pendingAfter_null]; rfl
  · next h => cases hl; rw [h, pendingAfter_arr]
  · cases hl

/-- On anything else, a registration writes its record when the key is in it, and
nothing otherwise. -/
theorem registered_of_other {u : Store} (hl : pendingList u = none) (record : JSON) (k : String) :
    registered u record k = if (pyIn (.str k) (pendingOf u)).toOption = some true then u.put k record else u := by
  have hn : pendingOf u ≠ .null := fun h => by simp [pendingList, h] at hl
  have ha : ∀ L, pendingOf u ≠ .arr L := fun L h => by simp [pendingList, h] at hl
  have hs : u keyNeedReview = some (pendingOf u) := by
    cases h : u keyNeedReview with
    | none => exact absurd (by simp [pendingOf, h]) hn
    | some v => simp [pendingOf, h]
  unfold registered
  rw [pendingAfter_of_ne_null hn]
  cases hin : pyIn (.str k) (pendingOf u) with
  | error e => rfl
  | ok b =>
    cases b
    · simp [pyAppend_of_not_arr ha, Except.toOption]
    · simp [Store.put_self hs, Except.toOption]

theorem registered_apply_ne {k k' : String} (hk : k' ≠ k) (hn : k' ≠ keyNeedReview) (u : Store)
    (record : JSON) : registered u record k k' = u k' := by
  unfold registered
  cases pendingAfter (pendingOf u) (.str k) <;> simp [hk, hn]

/-- A registration does not look at the other keys it leaves. -/
theorem registered_put {k k' : String} (hk : k' ≠ k) (hn : k' ≠ keyNeedReview) (u : Store)
    (record v : JSON) : registered (u.put k' v) record k = (registered u record k).put k' v := by
  unfold registered
  rw [pendingOf_put_ne hn]
  split
  · rw [Store.put_comm _ hn, Store.put_comm _ hk]
  · rfl

/-! ### What an approval writes -/

/-- The pending list with `k` erased, when it is a list; `approve_public_key` writes
anything else back as it read it. -/
def dropPending (u : Store) (k : String) : Store :=
  match u keyNeedReview with
  | some (.arr L) => u.put keyNeedReview (.arr (L.erase (.str k)))
  | _ => u

/-- The record an approval writes: the stored one marked `approved`, if there is one
to mark. -/
def recordApproved (v : Option JSON) : Option JSON :=
  v.bind fun b => (setItem b "status" (.str "approved")).toOption

/-- What an approval of `k` leaves: the record marked approved and the key erased from
the pending list, or the ledger as it was when there is no record to mark. -/
def approved (u : Store) (k : String) : Store :=
  match recordApproved (u k) with
  | some body => dropPending (u.put k body) k
  | none => u

theorem dropPending_of_not_arr {u : Store} (h : ∀ L, u keyNeedReview ≠ some (.arr L)) (k : String) :
    dropPending u k = u := by
  unfold dropPending
  split
  · next L h' => exact absurd h' (h L)
  · rfl

theorem dropPending_apply_ne {k' : String} (hn : k' ≠ keyNeedReview) (u : Store) (k : String) :
    dropPending u k k' = u k' := by
  by_cases ha : ∃ L, u keyNeedReview = some (.arr L)
  · obtain ⟨L, h⟩ := ha
    simp [dropPending, h, hn]
  · rw [dropPending_of_not_arr fun L h => ha ⟨L, h⟩]

theorem dropPending_put {k' : String} (hn : k' ≠ keyNeedReview) (u : Store) (k : String) (v : JSON) :
    dropPending (u.put k' v) k = (dropPending u k).put k' v := by
  unfold dropPending
  rw [Store.put_apply, if_neg (Ne.symm hn)]
  split
  · exact Store.put_comm _ hn _ _
  · rfl

theorem dropPending_comm (u : Store) (k₁ k₂ : String) :
    dropPending (dropPending u k₁) k₂ = dropPending (dropPending u k₂) k₁ := by
  by_cases ha : ∃ L, u keyNeedReview = some (.arr L)
  · obtain ⟨L, h⟩ := ha
    simp [dropPending, h, List.erase_comm]
  · simp only [dropPending_of_not_arr fun L h => ha ⟨L, h⟩]

theorem approved_of_some {u : Store} {k : String} {body : JSON} (h : recordApproved (u k) = some body) :
    approved u k = dropPending (u.put k body) k := by
  simp [approved, h]

theorem approved_of_none {u : Store} {k : String} (h : recordApproved (u k) = none) : approved u k = u := by
  simp [approved, h]

theorem approved_apply_ne {k k' : String} (hk : k' ≠ k) (hn : k' ≠ keyNeedReview) (u : Store) :
    approved u k k' = u k' := by
  cases h : recordApproved (u k) with
  | none => rw [approved_of_none h]
  | some body => rw [approved_of_some h, dropPending_apply_ne hn, Store.put_apply, if_neg hk]

/-! ### Serving a registry request -/

/-- `register_pubkey` with a string key writes what `registered` says. -/
theorem registerPubkey_step {req : Request} {record : JSON} {k : String}
    (h : RegisterRequest req record (.str k)) (u : Store) :
    ((Call.registerPubkey req).step u).1 = registered u record k := by
  show (registerPubkey Store.client req u).1 = _
  unfold registered
  split
  · next L hL => rw [registerPubkey_of_request h hL]
  · next e hL =>
    rcases registerPubkey_front req with ⟨r, -, hno, -⟩ | ⟨record', pubkey, h', hf⟩
    · exact absurd h (hno _ _)
    obtain ⟨rfl, rfl⟩ := h.unique h'
    rw [hf, savePending_run, hL]
    rfl

/-- `approve_public_key` writes what `approved` says. -/
theorem approvePublicKey_step {req : Request} {k : String} (h : ApproveRequest req k) (u : Store) :
    ((Call.approvePublicKey req).step u).1 = approved u k := by
  show (approvePublicKey Store.client req u).1 = _
  rcases approvePublicKey_front req with ⟨r, -, hno, -⟩ | ⟨k', h', hf⟩
  · exact absurd h (hno k)
  obtain rfl := h.unique h'
  rw [hf, approveKey_reads Store.readsFrom]
  cases hb : u k with
  | none => rw [approved_of_none (by simp [recordApproved, hb])]; rfl
  | some b =>
  cases hs : setItem b "status" (.str "approved") with
  | error e => rw [approved_of_none (by simp [recordApproved, hb, hs, Except.toOption])]; simp [hs]
  | ok body =>
  have hr : recordApproved (u k) = some body := by simp [recordApproved, hb, hs, Except.toOption]
  rw [approved_of_some hr]
  simp only [hs]
  by_cases ha : ∃ L, (u.put k body) keyNeedReview = some (.arr L)
  · obtain ⟨L, hl⟩ := ha
    simp [dropPending, hl, removeIfPresent_str, -Store.put_apply]
  · rw [dropPending_of_not_arr fun L h => ha ⟨L, h⟩]
    cases hl : (u.put k body) keyNeedReview with
    | none => simp [hl, -Store.put_apply]
    | some l =>
      cases hL : removeIfPresent l (.str k) with
      | error e => simp [hl, hL, -Store.put_apply]
      | ok X =>
        obtain ⟨rfl, -⟩ := removeIfPresent_of_not_arr (fun L e => ha ⟨L, hl.trans (congrArg some e)⟩) hL
        simpa [hl, hL, -Store.put_apply] using Store.put_self hl

/-! ### Ledgers equal but for the order of the pending list -/

/-- Two stored pending lists with the same keys: the same value, or two lists one a
permutation of the other. -/
def PendingPerm (a b : Option JSON) : Prop :=
  a = b ∨ ∃ L L', a = some (.arr L) ∧ b = some (.arr L') ∧ L.Perm L'

/-- Two ledgers equal but for the order of the pending-review list. -/
structure SamePending (u u' : Store) : Prop where
  other : ∀ k, k ≠ keyNeedReview → u k = u' k
  pending : PendingPerm (u keyNeedReview) (u' keyNeedReview)

theorem PendingPerm.symm {a b : Option JSON} : PendingPerm a b → PendingPerm b a
  | .inl h => .inl h.symm
  | .inr ⟨L, L', ha, hb, hp⟩ => .inr ⟨L', L, hb, ha, hp.symm⟩

theorem PendingPerm.trans {a b c : Option JSON} : PendingPerm a b → PendingPerm b c → PendingPerm a c
  | .inl rfl, h => h
  | h, .inl rfl => h
  | .inr ⟨L, L', ha, hb, hp⟩, .inr ⟨M, M', hb', hc, hq⟩ => by
    obtain rfl : L' = M := by simpa [hb] using hb'
    exact .inr ⟨L, M', ha, hc, hp.trans hq⟩

theorem SamePending.refl (u : Store) : SamePending u u := ⟨fun _ _ => rfl, .inl rfl⟩

theorem SamePending.symm {u u' : Store} (h : SamePending u u') : SamePending u' u :=
  ⟨fun k hk => (h.other k hk).symm, h.pending.symm⟩

theorem SamePending.trans {u u' u'' : Store} (h : SamePending u u') (h' : SamePending u' u'') :
    SamePending u u'' :=
  ⟨fun k hk => (h.other k hk).trans (h'.other k hk), h.pending.trans h'.pending⟩

theorem SamePending.put {u u' : Store} (h : SamePending u u') (k : String) (v : JSON) :
    SamePending (u.put k v) (u'.put k v) := by
  by_cases hk : k = keyNeedReview
  · subst hk
    exact ⟨fun k' hk' => by simp [hk', h.other k' hk'], .inl (by simp)⟩
  · exact ⟨fun k' hk' => by by_cases e : k' = k <;> simp [e, h.other k' hk'], by simpa [Ne.symm hk] using h.pending⟩

theorem SamePending.put_arr {u u' : Store} (h : SamePending u u') {L L' : List JSON} (hp : L.Perm L') :
    SamePending (u.put keyNeedReview (.arr L)) (u'.put keyNeedReview (.arr L')) :=
  ⟨fun k hk => by simp [hk, h.other k hk], .inr ⟨L, L', by simp, by simp, hp⟩⟩

/-- Related ledgers are read alike by `register_pubkey`. -/
theorem SamePending.registered {u u' : Store} (h : SamePending u u') (k : String) (record : JSON) :
    SamePending (registered u record k) (registered u' record k) := by
  rcases h.pending with e | ⟨L, L', hL, hL', hp⟩
  · have e' : pendingOf u = pendingOf u' := by simp [pendingOf, e]
    unfold IntkeyWill.registered
    rw [e']
    split
    · exact (h.put _ _).put _ _
    · exact h
  · have hl : pendingList u = some L := by simp [pendingList, pendingOf, hL]
    have hl' : pendingList u' = some L' := by simp [pendingList, pendingOf, hL']
    rw [registered_of_list hl, registered_of_list hl']
    exact (h.put_arr (perm_appendNew_str hp k)).put _ _

theorem SamePending.dropPending {u u' : Store} (h : SamePending u u') (k : String) :
    SamePending (IntkeyWill.dropPending u k) (IntkeyWill.dropPending u' k) := by
  rcases h.pending with e | ⟨L, L', hL, hL', hp⟩
  · unfold IntkeyWill.dropPending
    rw [e]
    split
    · exact h.put _ _
    · exact h
  · simp only [IntkeyWill.dropPending, hL, hL']
    exact h.put_arr (hp.erase _)

/-- Related ledgers are read alike by `approve_public_key`. -/
theorem SamePending.approved {u u' : Store} (h : SamePending u u') {k : String} (hk : k ≠ keyNeedReview) :
    SamePending (approved u k) (approved u' k) := by
  unfold IntkeyWill.approved
  rw [h.other k hk]
  split
  · exact (h.put _ _).dropPending _
  · exact h

/-! ### Two registry steps swapped -/

/-- Two registrations of distinct keys, in either order, leave the same ledger but for
the order of the pending list. -/
theorem registered_comm {k₁ k₂ : String} (hne : k₁ ≠ k₂) (h₁ : k₁ ≠ keyNeedReview) (h₂ : k₂ ≠ keyNeedReview)
    (u : Store) (r₁ r₂ : JSON) :
    SamePending (registered (registered u r₁ k₁) r₂ k₂) (registered (registered u r₂ k₂) r₁ k₁) := by
  cases hl : pendingList u with
  | some L =>
    have e₁ : pendingList (registered u r₁ k₁) = some (appendNew L (.str k₁)) := by
      rw [registered_of_list hl, pendingList_put_ne h₁, pendingList_put_arr]
    have e₂ : pendingList (registered u r₂ k₂) = some (appendNew L (.str k₂)) := by
      rw [registered_of_list hl, pendingList_put_ne h₂, pendingList_put_arr]
    rw [registered_of_list e₁, registered_of_list e₂, registered_of_list hl, registered_of_list hl]
    refine ⟨fun k hk => ?_, .inr ⟨_, _, by simp [Ne.symm h₁, Ne.symm h₂], by simp [Ne.symm h₁, Ne.symm h₂],
      appendNew_comm_perm L hne⟩⟩
    by_cases e₁ : k = k₁ <;> by_cases e₂ : k = k₂ <;> simp_all
  | none =>
    -- no list is stored: each registration writes at most its record
    suffices e : registered (registered u r₁ k₁) r₂ k₂ = registered (registered u r₂ k₂) r₁ k₁ from
      e ▸ SamePending.refl _
    have o : ∀ r k, registered u r k = u ∨ registered u r k = u.put k r := fun r k => by
      rw [registered_of_other hl]
      split
      exacts [.inr rfl, .inl rfl]
    rcases o r₁ k₁ with e₁ | e₁ <;> rcases o r₂ k₂ with e₂ | e₂ <;>
      simp only [e₁, e₂, registered_put hne h₁ u r₂ r₁, registered_put (Ne.symm hne) h₂ u r₁ r₂,
        Store.put_comm u hne r₁ r₂]

/-- A registration keeps the key an approval erased out of the pending list. -/
theorem registered_dropPending {k k' : String} (hk : k ≠ k') (hn : k ≠ keyNeedReview) (u : Store)
    (record : JSON) : registered (dropPending u k') record k = dropPending (registered u record k) k' := by
  by_cases ha : ∃ L, u keyNeedReview = some (.arr L)
  · obtain ⟨L, hv⟩ := ha
    have hl : pendingList u = some L := by simp [pendingList, pendingOf, hv]
    have hd : dropPending u k' = u.put keyNeedReview (.arr (L.erase (.str k'))) := by simp [dropPending, hv]
    rw [hd, registered_of_list (pendingList_put_arr u _), registered_of_list hl, Store.put_put, dropPending_put hn]
    simp [dropPending, appendNew_erase hk]
  · have hd : ∀ u' : Store, u' keyNeedReview = u keyNeedReview → dropPending u' k' = u' := fun u' e => by
      unfold dropPending
      split
      · next L h => exact absurd ⟨L, e ▸ h⟩ ha
      · rfl
    rw [hd u rfl]
    cases hl : pendingList u with
    | some L =>
      -- no list is stored yet, and the registration starts one
      have hL : L = [] := by
        unfold pendingList pendingOf at hl
        cases hv : u keyNeedReview with
        | none => simpa [hv] using hl.symm
        | some v => cases v <;> simp_all
      subst hL
      rw [registered_of_list hl]
      simp [dropPending, appendNew_str, Ne.symm hn, hk]
      exact (Store.put_self (by simp [Ne.symm hn])).symm
    | none =>
      rw [registered_of_other hl]
      split
      · exact (hd _ (by simp [Ne.symm hn])).symm
      · exact (hd u rfl).symm

/-- An approval and a registration of another key, in either order, leave the same
ledger. -/
theorem registered_approved_comm {k₁ k₂ : String} (hne : k₁ ≠ k₂) (h₁ : k₁ ≠ keyNeedReview)
    (h₂ : k₂ ≠ keyNeedReview) (u : Store) (record : JSON) :
    approved (registered u record k₁) k₂ = registered (approved u k₂) record k₁ := by
  unfold approved
  rw [registered_apply_ne (Ne.symm hne) h₂]
  split
  · rw [registered_dropPending hne h₁, registered_put (Ne.symm hne) h₂]
  · rfl

/-- Two approvals, in either order, leave the same ledger. -/
theorem approved_comm {k₁ k₂ : String} (h₁ : k₁ ≠ keyNeedReview) (h₂ : k₂ ≠ keyNeedReview) (u : Store) :
    approved (approved u k₁) k₂ = approved (approved u k₂) k₁ := by
  by_cases e : k₁ = k₂
  · rw [e]
  -- each approval reads its record where the other left it
  have a₁ : approved u k₂ k₁ = u k₁ := approved_apply_ne e h₁ u
  have a₂ : approved u k₁ k₂ = u k₂ := approved_apply_ne (Ne.symm e) h₂ u
  cases hr₁ : recordApproved (u k₁) with
  | none =>
    have hr₁' : recordApproved (approved u k₂ k₁) = none := by rw [a₁, hr₁]
    rw [approved_of_none hr₁, approved_of_none hr₁']
  | some b₁ =>
  have hr₁' : recordApproved (approved u k₂ k₁) = some b₁ := by rw [a₁, hr₁]
  cases hr₂ : recordApproved (u k₂) with
  | none =>
    have hr₂' : recordApproved (approved u k₁ k₂) = none := by rw [a₂, hr₂]
    rw [approved_of_none hr₂, approved_of_none hr₂']
  | some b₂ =>
    have hr₂' : recordApproved (approved u k₁ k₂) = some b₂ := by rw [a₂, hr₂]
    rw [approved_of_some hr₂', approved_of_some hr₁', approved_of_some hr₁, approved_of_some hr₂,
      ← dropPending_put h₂, ← dropPending_put h₁, Store.put_comm _ e, dropPending_comm]

/-! ### Batches of registry requests -/

/-- A request to `/register` or `/admin/approve` that, when it gets to the ledger, names
a string key other than `KEY_NEED_REVIEW`. -/
def Call.RegistryStr : Call → Prop
  | .registerPubkey req => ∀ record pubkey, RegisterRequest req record pubkey →
      ∃ k, pubkey = .str k ∧ k ≠ keyNeedReview
  | .approvePublicKey req => ∀ k, ApproveRequest req k → k ≠ keyNeedReview
  | _ => False

/-- Two registry requests that can be swapped: a key both name is approved by both. -/
def Call.RegistryApart (c c' : Call) : Prop :=
  ∀ k, (c.Registers k (fun _ => True) ∨ c.Approves k) → (c'.Registers k (fun _ => True) ∨ c'.Approves k) →
    c.Approves k ∧ c'.Approves k

theorem Call.RegistryApart.symm {c c' : Call} (h : c.RegistryApart c') : c'.RegistryApart c :=
  fun k h₁ h₂ => (h k h₂ h₁).symm

/-- What a registry request of a string key does: nothing, a registration or an
approval. -/
theorem Call.registry_step {c : Call} (hc : c.RegistryStr) :
    (∀ u, (c.step u).1 = u) ∨
    (∃ record k, c.Registers k (fun _ => True) ∧ k ≠ keyNeedReview ∧
      ∀ u, (c.step u).1 = registered u record k) ∨
    (∃ k, c.Approves k ∧ k ≠ keyNeedReview ∧ ∀ u, (c.step u).1 = approved u k) := by
  cases c with
  | createWill req | witnessSign req => cases hc
  | registerPubkey req =>
    rcases registerPubkey_front req with ⟨r, -, -, h⟩ | ⟨record, pubkey, hreq, -⟩
    · exact .inl fun u => congrArg Prod.fst (h Store.client u)
    · obtain ⟨k, rfl, hk⟩ := hc record pubkey hreq
      exact .inr (.inl ⟨record, k, ⟨record, hreq, trivial⟩, hk, registerPubkey_step hreq⟩)
  | approvePublicKey req =>
    rcases approvePublicKey_front req with ⟨r, -, -, h⟩ | ⟨k, hreq, -⟩
    · exact .inl fun u => congrArg Prod.fst (h Store.client u)
    · exact .inr (.inr ⟨k, hreq, hc k hreq, approvePublicKey_step hreq⟩)

/-- A registry request of a string key keeps two ledgers equal but for the order of the
pending list. -/
theorem SamePending.step {u u' : Store} (h : SamePending u u') {c : Call} (hc : c.RegistryStr) :
    SamePending (c.step u).1 (c.step u').1 := by
  rcases Call.registry_step hc with e | ⟨record, k, -, -, e⟩ | ⟨k, -, hk, e⟩ <;> rw [e, e]
  · exact h
  · exact h.registered k record
  · exact h.approved hk

/-- Two registry requests that can be swapped leave, in either order, the same ledger
but for the order of the pending list. -/
theorem registry_comm {c c' : Call} (hc : c.RegistryStr) (hc' : c'.RegistryStr) (ha : c.RegistryApart c')
    (u : Store) : SamePending (c'.step (c.step u).1).1 (c.step (c'.step u).1).1 := by
  rcases Call.registry_step hc with e | ⟨r, k, hr, hk, e⟩ | ⟨k, happ, hk, e⟩
  · -- `c` writes nothing
    rcases Call.registry_step hc' with e' | ⟨r', k', -, -, e'⟩ | ⟨k', -, -, e'⟩ <;> simp only [e, e'] <;>
      exact .refl _
  · -- `c` registers `k`, which `c'` does not name
    rcases Call.registry_step hc' with e' | ⟨r', k', hr', hk', e'⟩ | ⟨k', happ', hk', e'⟩ <;> simp only [e, e']
    · exact .refl _
    · have hne : k ≠ k' := fun h => Call.not_approves_of_registers hr (ha k (.inl hr) (.inl (h ▸ hr'))).1
      exact registered_comm hne hk hk' u r r'
    · have hne : k ≠ k' := fun h => Call.not_approves_of_registers hr (ha k (.inl hr) (.inr (h ▸ happ'))).1
      exact registered_approved_comm hne hk hk' u r ▸ .refl _
  · -- `c` approves `k`
    rcases Call.registry_step hc' with e' | ⟨r', k', hr', hk', e'⟩ | ⟨k', -, hk', e'⟩ <;> simp only [e, e']
    · exact .refl _
    · have hne : k' ≠ k := fun h => Call.not_approves_of_registers hr' (ha k' (.inr (h ▸ happ)) (.inl hr')).2
      exact registered_approved_comm hne hk' hk u r' ▸ .refl _
    · exact approved_comm hk hk' u ▸ .refl _

/-- **The order of registry requests**: a batch of registry requests of string keys other
than `KEY_NEED_REVIEW`, in which a key named by two requests is approved by both, leaves
in every order the same records and a pending list with the same keys. -/
theorem registry_order {cs cs' : List Call} (hp : cs.Perm cs') (s : Store)
    (hc : ∀ c ∈ cs, c.RegistryStr) (hd : cs.Pairwise Call.RegistryApart) :
    SamePending (runStore s cs) (runStore s cs') := by
  induction hp with
  | nil => exact .refl _
  | cons c _ ih =>
    exact (ih (fun c' h => hc c' (List.mem_cons_of_mem _ h)) (List.pairwise_cons.1 hd).2).step
      (hc c (List.mem_cons_self _ _))
  | swap c c' cs =>
    exact registry_comm (hc c (by simp)) (hc c' (by simp))
      ((List.pairwise_cons.1 hd).1 c (List.mem_cons_self _ _)).symm _
  | trans hp₁ _ ih₁ ih₂ =>
    exact (ih₁ hc hd).trans (ih₂ (fun c h => hc c (hp₁.mem_iff.2 h))
      ((hp₁.pairwise_iff fun h => Call.RegistryApart.symm h).1 hd))

/-- `c` is approved before `a` and `b` register; served the other way round, the records
are the same and the pending list holds `a` and `b`. -/
theorem registry_order_three :
    let reg := fun k : String => Call.registerPubkey ⟨"POST", some (.obj [("public_key", .str k)]), []⟩
    let appr := fun k : String => Call.approvePublicKey ⟨"GET", none, [("public_key", k)]⟩
    (∀ c ∈ [reg "b", reg "a", appr "c"], c.RegistryStr) ∧
      [reg "b", reg "a", appr "c"].Pairwise Call.RegistryApart ∧
      SamePending (runStore Store.empty [reg "b", reg "a", appr "c"])
        (runStore Store.empty [appr "c", reg "a", reg "b"]) := by
  intro reg appr
  have hreg : ∀ k record pubkey, RegisterRequest ⟨"POST", some (.obj [("public_key", .str k)]), []⟩
      record pubkey → pubkey = .str k := fun k record pubkey h => by
    have h₀ : RegisterRequest ⟨"POST", some (.obj [("public_key", .str k)]), []⟩ _ (.str k) :=
      ⟨rfl, ⟨_, rfl, rfl, rfl⟩, rfl⟩
    exact (h₀.unique h).2.symm
  have happr : ∀ k k', ApproveRequest ⟨"GET", none, [("public_key", k)]⟩ k' → k' = k :=
    fun k k' h => (Option.some.inj h.key).symm
  -- each request names one key
  have names : ∀ c kc, (c = reg kc ∨ c = appr kc) →
      ∀ k, (c.Registers k (fun _ => True) ∨ c.Approves k) → k = kc := by
    rintro c kc (rfl | rfl) k (⟨record, h, -⟩ | h)
    · exact JSON.str.inj (hreg kc record _ h)
    · exact absurd h id
    · exact happr kc k h
  have apart : ∀ c c' kc kc', (c = reg kc ∨ c = appr kc) → (c' = reg kc' ∨ c' = appr kc') → kc ≠ kc' →
      c.RegistryApart c' := fun c c' kc kc' h h' hne k hk hk' =>
    absurd ((names c kc h k hk).symm.trans (names c' kc' h' k hk')) hne
  have hc : ∀ c ∈ [reg "b", reg "a", appr "c"], c.RegistryStr := by
    simp only [List.mem_cons, List.mem_singleton, List.not_mem_nil, or_false]
    rintro c (rfl | rfl | rfl)
    · exact fun record pubkey h => ⟨"b", hreg "b" record pubkey h, by decide⟩
    · exact fun record pubkey h => ⟨"a", hreg "a" record pubkey h, by decide⟩
    · exact fun k h => happr "c" k h ▸ by decide
  have hd : [reg "b", reg "a", appr "c"].Pairwise Call.RegistryApart := by
    refine .cons ?_ (.cons ?_ (.cons (fun _ h => absurd h (List.not_mem_nil _)) .nil))
    · simp only [List.mem_cons, List.mem_singleton, List.not_mem_nil, or_false]
      rintro c (rfl | rfl)
      exacts [apart _ _ "b" "a" (.inl rfl) (.inl rfl) (by decide), apart _ _ "b" "c" (.inl rfl) (.inr rfl) (by decide)]
    · simp only [List.mem_singleton]
      rintro c rfl
      exact apart _ _ "a" "c" (.inl rfl) (.inr rfl) (by decide)
  exact ⟨hc, hd, registry_order (List.reverse_perm _).symm Store.empty hc hd⟩

/-- The order itself is not kept: registered in either order, `a` and `b` stand on the
pending list in the order they came. -/
example :
    let reg := fun k : String => Call.registerPubkey ⟨"POST", some (.obj [("public_key", .str k)]), []⟩
    runStore Store.empty [reg "b", reg "a"] keyNeedReview = some (.arr [.str "a", .str "b"]) ∧
      runStore Store.empty [reg "a", reg "b"] keyNeedReview = some (.arr [.str "b", .str "a"]) := by
  decide

/-- The answers are not kept: on a ledger with a record for `a` and no pending list yet,
approving `a` raises `KeyError` once the record is written, and succeeds after a
registration of `b` has started the list. -/
example :
    let u := Store.empty.put "a" (.obj [("public_key", .str "a")])
    let reg := Call.registerPubkey ⟨"POST", some (.obj [("public_key", .str "b")]), []⟩
    let appr := Call.approvePublicKey ⟨"GET", none, [("public_key", "a")]⟩
    (appr.step u).2.toBool = false ∧ (appr.step (reg.step u).1).2.toBool = true := by
  decide

theorem runStore_eq_foldr (s : Store) : ∀ cs : List Call,
    runStore s cs = cs.foldr (fun c u => (c.step u).1) s
  | [] => rfl
  | c :: cs => congrArg (fun u => (c.step u).1) (runStore_eq_foldr s cs)

/-- **Approvals commute**: a batch of `approve_public_key` requests, none approving
`KEY_NEED_REVIEW`, leaves the same ledger in every order, a key approved twice
included. -/
theorem approvals_commute {cs cs' : List Call} (hp : cs.Perm cs') (s : Store)
    (hc : ∀ c ∈ cs, ∃ req, c = .approvePublicKey req ∧ ∀ k, ApproveRequest req k → k ≠ keyNeedReview) :
    runStore s cs = runStore s cs' := by
  have step : ∀ c ∈ cs, (∀ u, (c.step u).1 = u) ∨ ∃ k, k ≠ keyNeedReview ∧ ∀ u, (c.step u).1 = approved u k := by
    intro c h
    obtain ⟨r, rfl, hr⟩ := hc c h
    rcases Call.registry_step (show Call.RegistryStr (.approvePublicKey r) from hr) with
      e | ⟨_, _, hreg, -⟩ | ⟨k, -, hk, e⟩
    · exact .inl e
    · exact absurd hreg id
    · exact .inr ⟨k, hk, e⟩
  rw [runStore_eq_foldr, runStore_eq_foldr]
  refine hp.foldr_eq' (fun c h c' h' u => ?_) s
  rcases step c h with e | ⟨k, hk, e⟩ <;> rcases step c' h' with e' | ⟨k', hk', e'⟩ <;> simp only [e, e']
  exact approved_comm hk hk' u

/-- `a` is approved twice and `b` once; the order does not matter. -/
theorem approvals_commute_twice :
    let appr := fun k : String => Call.approvePublicKey ⟨"GET", none, [("public_key", k)]⟩
    (∀ c ∈ [appr "a", appr "b", appr "a"],
      ∃ req, c = .approvePublicKey req ∧ ∀ k, ApproveRequest req k → k ≠ keyNeedReview) ∧
    runStore Store.empty [appr "a", appr "b", appr "a"] = runStore Store.empty [appr "b", appr "a", appr "a"] := by
  intro appr
  have hc : ∀ c ∈ [appr "a", appr "b", appr "a"],
      ∃ req, c = .approvePublicKey req ∧ ∀ k, ApproveRequest req k → k ≠ keyNeedReview := by
    simp only [List.mem_cons, List.mem_singleton, List.not_mem_nil, or_false]
    rintro c (rfl | rfl | rfl) <;> refine ⟨_, rfl, fun k h => ?_⟩ <;>
      rw [← Option.some.inj h.key] <;> decide
  exact ⟨hc, approvals_commute (List.Perm.swap _ _ _) Store.empty hc⟩

end IntkeyWill
