import IntkeyWill.Separation
import IntkeyWill.WillOrder

/-!
# The order of a batch of requests

The order results of the two halves of the API compose.  A batch that mixes
registrations, approvals and will requests can be served will requests first
(`registry_wills_commute`); the registry requests then leave the same ledger in any order
but for the order of the pending-review list (`registry_order`) and never look at
the indexes (`SameIndexes.runStore_registry`), so it is enough that the will requests
leave the same ledger in any order but for the order of the indexes
(`sameUpToOrder_of_wills`).  Creations alone do (`creations_order`, hence
`batch_order`).  A signature reads and writes one will key only, and from an index it
writes nothing (`SameIndexes.signAt`); it commutes exactly with a creation for another
testator (`Call.creation_signAt`) and with a signature of another will or witness whose
entry is unsigned (`witnessSign_comm`), which the rest of the batch keeps unsigned
(`Unsigned.runStore_wills`).  So a batch of writes served in any order leaves ledgers
that differ at most in the order of these lists (`api_batch_order`): the order in which
requests reach the server shows only in the order `list_need_approve` and
`show_will_list` list what they show.

## Main definitions

* `SameUpToOrder` — ledgers equal but for the order of the pending list and of the
  witness indexes.
* `Call.SignsStr`, `Call.WillsApart` — signatures of testators whose keys are not index
  keys, and two will requests that can be swapped.

## Main results

* `SameIndexes.registry_step` — a registry request that names no will key keeps two
  ledgers equal but for the order of the indexes.
* `Call.will_swap` — two will requests commute up to the order of the indexes.
* `batch_order` — **registrations, approvals and creations served in any order**.
* `api_batch_order` — **every kind of write served in any order**.
-/

namespace IntkeyWill

/-- Two ledgers equal but for the order of the pending-review list and of the witness
indexes. -/
structure SameUpToOrder (u u' : Store) : Prop where
  other : ∀ k, k ≠ keyNeedReview → (∀ w, k ≠ willListPrefix ++ w) → u k = u' k
  pending : PendingPerm (u keyNeedReview) (u' keyNeedReview)
  index : ∀ w, PendingPerm (u (willListPrefix ++ w)) (u' (willListPrefix ++ w))

theorem SameUpToOrder.trans {u u' u'' : Store} (h : SameUpToOrder u u') (h' : SameUpToOrder u' u'') :
    SameUpToOrder u u'' :=
  ⟨fun k hk hw => (h.other k hk hw).trans (h'.other k hk hw), h.pending.trans h'.pending,
    fun w => (h.index w).trans (h'.index w)⟩

/-- The pending list is no index. -/
theorem keyNeedReview_ne_index (w : String) : keyNeedReview ≠ willListPrefix ++ w :=
  fun e => not_isWillKey_keyNeedReview (e ▸ isWillKey_willListPrefix w)

theorem SamePending.sameUpToOrder {u u' : Store} (h : SamePending u u') : SameUpToOrder u u' :=
  ⟨fun k hk _ => h.other k hk, h.pending, fun w => .inl (h.other _ (keyNeedReview_ne_index w).symm)⟩

theorem SameIndexes.sameUpToOrder {u u' : Store} (h : SameIndexes u u') : SameUpToOrder u u' :=
  ⟨fun k _ hw => h.other k hw, .inl (h.other _ (keyNeedReview_ne_index)), h.index⟩

/-- A registry request that names no will key keeps two ledgers equal but for the order
of the indexes: it does not read them and does not write them. -/
theorem SameIndexes.registry_step {u u' : Store} (h : SameIndexes u u') {c : Call} (hc : c.InRegistry) :
    SameIndexes (c.step u).1 (c.step u').1 := by
  -- outside the will ledger the two ledgers agree, and the request reads nothing else
  have hl := (Call.localTo_registry hc u u' fun k hk =>
    h.other k fun w e => hk (e ▸ isWillKey_willListPrefix w)).1
  refine ⟨fun k hk => ?_, fun w => ?_⟩
  · by_cases hw : IsWillKey k
    · rw [Call.frame_registry hc u hw, Call.frame_registry hc u' hw, h.other k hk]
    · exact hl k hw
  · rw [Call.frame_registry hc u (isWillKey_willListPrefix w), Call.frame_registry hc u' (isWillKey_willListPrefix w)]
    exact h.index w

theorem SameIndexes.runStore_registry {u u' : Store} (h : SameIndexes u u') :
    ∀ cs : List Call, (∀ c ∈ cs, c.InRegistry) → SameIndexes (runStore u cs) (runStore u' cs)
  | [], _ => h
  | c :: cs, hc => (h.runStore_registry cs fun c' h' => hc c' (List.mem_cons_of_mem c h')).registry_step
      (hc c (List.mem_cons_self c cs))

theorem Call.CreatesStr.willSide {c : Call} (hc : c.CreatesStr) : c.willSide := by
  cases c <;> first | rfl | cases hc

theorem Call.InRegistry.not_willSide {c : Call} (hc : c.InRegistry) : c.willSide = false := by
  cases c <;> first | rfl | cases hc

/-- A batch of registry requests that can be swapped and of will requests leaves in every
order ledgers equal but for the order of the lists, once its will requests, served first,
leave in every order ledgers equal but for the order of the indexes. -/
theorem sameUpToOrder_of_wills {cs cs' : List Call} (hp : cs.Perm cs') (s : Store)
    (hc : ∀ c ∈ cs, (c.InRegistry ∧ c.RegistryStr) ∨ c.willSide) (hd : cs.Pairwise Call.RegistryApart)
    (hw : SameIndexes (runStore s (cs.filter Call.willSide)) (runStore s (cs'.filter Call.willSide))) :
    SameUpToOrder (runStore s cs) (runStore s cs') := by
  have hc' : ∀ c ∈ cs', (c.InRegistry ∧ c.RegistryStr) ∨ c.willSide := fun c h => hc c (hp.mem_iff.2 h)
  -- each batch is served will requests first
  have split : ∀ l : List Call, (∀ c ∈ l, (c.InRegistry ∧ c.RegistryStr) ∨ c.willSide) →
      runStore s l = runStore (runStore s (l.filter Call.willSide)) (l.filter fun c => !c.willSide) :=
    fun l h => (registry_wills_commute s l fun c hc => (h c hc).imp_left And.left).trans (runStore_append _ _ _)
  have hreg : ∀ l : List Call, (∀ c ∈ l, (c.InRegistry ∧ c.RegistryStr) ∨ c.willSide) →
      ∀ c ∈ l.filter fun c => !c.willSide, c.InRegistry ∧ c.RegistryStr := fun l h c hm => by
    obtain ⟨hm, hw⟩ := List.mem_filter.1 hm
    exact (h c hm).resolve_right (by simpa using hw)
  rw [split cs hc, split cs' hc']
  -- the registry requests reorder the pending list, and do not look at the indexes
  have h₁ := registry_order (hp.filter fun c => !c.willSide) (runStore s (cs.filter Call.willSide))
    (fun c h => (hreg cs hc c h).2) (hd.sublist (List.filter_sublist cs))
  have h₂ := hw.runStore_registry (cs'.filter fun c => !c.willSide) fun c h => (hreg cs' hc' c h).1
  exact h₁.sameUpToOrder.trans h₂.sameUpToOrder

/-- **The order of a batch of requests**: a batch of registrations and approvals of string
keys that are neither `KEY_NEED_REVIEW` nor will keys, and of creations of wills of
string testators whose keys do not start with `LIST_`, in which a key named by two
registry requests is approved by both and no two creations are for one testator, leaves
in every order ledgers that differ at most in the order of the pending-review list and
of the witness indexes. -/
theorem batch_order {cs cs' : List Call} (hp : cs.Perm cs') (s : Store)
    (hc : ∀ c ∈ cs, (c.InRegistry ∧ c.RegistryStr) ∨ c.CreatesStr)
    (hd : cs.Pairwise fun c c' => c.RegistryApart c' ∧ c.CreatesApart c') :
    SameUpToOrder (runStore s cs) (runStore s cs') := by
  refine sameUpToOrder_of_wills hp s (fun c h => (hc c h).imp_right Call.CreatesStr.willSide) (hd.imp And.left) ?_
  -- the will part holds the creations
  refine creations_order (hp.filter _) s (fun c hm => ?_) ((hd.sublist (List.filter_sublist cs)).imp And.right)
  obtain ⟨hm, hw⟩ := List.mem_filter.1 hm
  exact (hc c hm).resolve_left fun hr => by simp [hr.1.not_willSide] at hw

/-- `b` writes a will naming the witness `a` between the registrations of `e` and `a`;
served the other way round, the ledgers are the same but for the order of the lists. -/
theorem batch_order_three :
    let reg := fun k : String => Call.registerPubkey ⟨"POST", some (.obj [("public_key", .str k)]), []⟩
    let will := Call.createWill ⟨"POST", some (.obj [("public_key", .str "b"),
      ("witnesses", .arr [.obj [("public_key", .str "a")]])]), []⟩
    (∀ c ∈ [reg "a", will, reg "e"], (c.InRegistry ∧ c.RegistryStr) ∨ c.CreatesStr) ∧
      [reg "a", will, reg "e"].Pairwise (fun c c' => c.RegistryApart c' ∧ c.CreatesApart c') ∧
      SameUpToOrder (runStore Store.empty [reg "a", will, reg "e"])
        (runStore Store.empty [reg "e", will, reg "a"]) := by
  intro reg will
  have hreg : ∀ k, RegisterRequest ⟨"POST", some (.obj [("public_key", .str k)]), []⟩ _ (.str k) :=
    fun k => ⟨rfl, ⟨_, rfl, rfl, rfl⟩, rfl⟩
  have hwill : CreateRequest ⟨"POST", some (.obj [("public_key", .str "b"),
      ("witnesses", .arr [.obj [("public_key", .str "a")]])]), []⟩ _ (.str "b") := ⟨rfl, rfl, rfl, rfl⟩
  -- each registration names its own key, the creation none
  have names : ∀ k k', (reg k).Registers k' (fun _ => True) ∨ (reg k).Approves k' → k' = k :=
    fun k k' h => h.elim (fun h => ((registers_iff (hreg k) k' _).1 h).1) (fun h => absurd h id)
  have hnone : ∀ k, ¬ (will.Registers k (fun _ => True) ∨ will.Approves k) := fun k h => h.elim id id
  have hr : ∀ k, k ≠ keyNeedReview → ¬ IsWillKey k → (reg k).InRegistry ∧ (reg k).RegistryStr :=
    fun k hn hw => ⟨fun record k' h => by obtain rfl := JSON.str.inj ((hreg k).unique h).2; exact hw,
      fun record pubkey h => ⟨k, ((hreg k).unique h).2.symm, hn⟩⟩
  have hc : ∀ c ∈ [reg "a", will, reg "e"], (c.InRegistry ∧ c.RegistryStr) ∨ c.CreatesStr := by
    simp only [List.mem_cons, List.mem_singleton, List.not_mem_nil, or_false]
    rintro c (rfl | rfl | rfl)
    · exact .inl (hr "a" (by decide) fun ⟨_, h⟩ => by simp [String.ext_iff, willPrefix] at h)
    · exact .inr fun body pubkey h => ⟨"b", (hwill.unique h).2.symm, fun w e => by simp [String.ext_iff] at e⟩
    · exact .inl (hr "e" (by decide) fun ⟨_, h⟩ => by simp [String.ext_iff, willPrefix] at h)
  have hd : [reg "a", will, reg "e"].Pairwise (fun c c' => c.RegistryApart c' ∧ c.CreatesApart c') := by
    refine .cons ?_ (.cons ?_ (.cons (fun _ h => absurd h (List.not_mem_nil _)) .nil))
    · simp only [List.mem_cons, List.mem_singleton, List.not_mem_nil, or_false]
      rintro c (rfl | rfl)
      · exact ⟨fun k _ h => absurd h (hnone k), fun _ _ h => absurd h id⟩
      · exact ⟨fun k h h' => absurd ((names _ _ h).symm.trans (names _ _ h')) (by decide),
          fun _ _ h => absurd h id⟩
    · simp only [List.mem_singleton]
      rintro c rfl
      exact ⟨fun k h => absurd h (hnone k), fun _ _ _ h => absurd h id⟩
  exact ⟨hc, hd, batch_order (List.reverse_perm _).symm Store.empty hc hd⟩

/-- The two ledgers are not equal: `a` and `e` stand on the pending list in the order they
came. -/
example :
    let reg := fun k : String => Call.registerPubkey ⟨"POST", some (.obj [("public_key", .str k)]), []⟩
    let will := Call.createWill ⟨"POST", some (.obj [("public_key", .str "b"),
      ("witnesses", .arr [.obj [("public_key", .str "a")]])]), []⟩
    runStore Store.empty [reg "a", will, reg "e"] keyNeedReview = some (.arr [.str "e", .str "a"]) ∧
      runStore Store.empty [reg "e", will, reg "a"] keyNeedReview = some (.arr [.str "a", .str "e"]) := by
  decide

/-! ### Signatures in the batch -/

/-- A `witness_sign` request whose testator's key does not start with `LIST_`. -/
def Call.SignsStr : Call → Prop
  | .witnessSign req => ∀ t w, SignRequest req t w → ∀ x, t ≠ "LIST_" ++ x
  | _ => False

/-- The request creates or signs the will of `t`. -/
def Call.NamesWill (t : String) (c : Call) : Prop := c.Creates t ∨ ∃ w, c.Signs t w

/-- Two will requests that can be swapped: a will both name is signed by both, for
different witnesses. -/
def Call.WillsApart (c c' : Call) : Prop :=
  ∀ t, c.NamesWill t → c'.NamesWill t → ∃ w w', c.Signs t w ∧ c'.Signs t w' ∧ w ≠ w'

theorem Call.WillsApart.symm {c c' : Call} (h : c.WillsApart c') : c'.WillsApart c := fun t h₁ h₂ =>
  let ⟨w, w', hw, hw', hne⟩ := h t h₂ h₁
  ⟨w', w, hw', hw, Ne.symm hne⟩

theorem Call.SignsStr.willSide {c : Call} (hc : c.SignsStr) : c.willSide := by
  cases c <;> first | rfl | cases hc

theorem Call.Signs.unique {c : Call} {t t' w w' : String} (h : c.Signs t w) (h' : c.Signs t' w') :
    t = t' ∧ w = w' := by
  cases c with
  | witnessSign req => exact SignRequest.unique h h'
  | _ => cases h

theorem Call.Creates.not_signs {c : Call} {t t' w : String} (h : c.Creates t) : ¬ c.Signs t' w := by
  cases c with
  | createWill req => exact id
  | _ => cases h

/-- The testator a will request of the batch signs for has no index key. -/
theorem Call.signs_not_list {c : Call} (hc : c.CreatesStr ∨ c.SignsStr) {t w : String} (hs : c.Signs t w) :
    ∀ x, t ≠ "LIST_" ++ x := by
  cases c with
  | witnessSign req => exact (hc.resolve_left id) t w hs
  | _ => cases hs

theorem Call.WillsApart.createsApart {c c' : Call} (h : c.WillsApart c') : c.CreatesApart c' := by
  rintro t _ hc hc' rfl
  obtain ⟨w, -, hw, -⟩ := h t (.inl hc) (.inl hc')
  exact hc.not_signs hw

theorem Call.WillsApart.signsApart {c c' : Call} (h : c.WillsApart c') : SignsApart c c' := fun t w hs hs' => by
  obtain ⟨w₁, w₂, h₁, h₂, hne⟩ := h t (.inr ⟨w, hs⟩) (.inr ⟨w, hs'⟩)
  exact hne ((hs.unique h₁).2.symm.trans (hs'.unique h₂).2)

/-- A creation and a signature of the batch are for different testators. -/
theorem Call.WillsApart.not_creates {c c' : Call} (h : c.WillsApart c') {t w : String} (hs : c'.Signs t w) :
    ¬ c.Creates t := fun hc => by
  obtain ⟨w₁, -, hw₁, -⟩ := h t (.inl hc) (.inr ⟨w, hs⟩)
  exact hc.not_signs hw₁

/-- `witness_sign` leaves an index as it is. -/
theorem signedOr_arr (L : List JSON) (w : String) : signedOr (.arr L) w = .arr L :=
  signedOr_of_not_entries (by rintro ⟨kvs, es, h, -⟩; cases h) w

/-- A signature reads two ledgers equal but for the order of the indexes alike: it reads
one key, and from an index it writes nothing. -/
theorem SameIndexes.signAt {u u' : Store} (h : SameIndexes u u') (t w : String) :
    SameIndexes (signAt u t w) (signAt u' t w) := by
  refine ⟨fun k hk => by rw [signAt_apply, signAt_apply, h.other k hk], fun x => ?_⟩
  rw [signAt_apply, signAt_apply]
  split
  · rcases h.index x with e | ⟨L, L', hL, hL', hp⟩
    · exact .inl (by rw [e])
    · exact .inr ⟨L, L', by simp [hL, signedOr_arr], by simp [hL', signedOr_arr], hp⟩
  · exact h.index x

theorem Call.sameIndexes_step {c : Call} (hc : c.CreatesStr ∨ c.SignsStr) {u u' : Store}
    (h : SameIndexes u u') : SameIndexes (c.step u).1 (c.step u').1 := by
  rcases hc with hc | hc
  · exact (Call.congr_step hc u u' h).1
  · cases c with
    | registerPubkey req | approvePublicKey req | createWill req => cases hc
    | witnessSign req =>
      rcases witnessSign_step req with ⟨-, e⟩ | ⟨t, w, -, e⟩ <;> rw [e, e]
      exacts [h, h.signAt t w]

/-- A creation leaves alone every key but the indexes and its own will key. -/
theorem creation_apply {k : String} (hk : ∀ w, k ≠ willListPrefix ++ w) {t : String} (ht : k ≠ willPrefix ++ t)
    (v : JSON) (es : List JSON) (u : Store) : (creation t v es u).1 k = u k := by
  have hl := addToWillLists_frame (.str t) es u hk
  unfold creation
  simp only [Py.run_bind]
  revert hl
  obtain ⟨x, _ | _⟩ := addToWillLists Store.client (.str t) es u <;> intro (hl : x k = u k)
  · exact hl
  · simp [ht, hl]

/-- **A creation and a signature commute** on the ledger, for different testators. -/
theorem Call.creation_signAt {c : Call} (hc : c.CreatesStr) {t : String} (ht : ∀ x, t ≠ "LIST_" ++ x)
    (hn : ¬ c.Creates t) (w : String) (u : Store) : (c.step (signAt u t w)).1 = signAt (c.step u).1 t w := by
  rcases Call.creation_step hc with ⟨r, e⟩ | ⟨t', v, es, -, hct, e⟩ <;> rw [e]
  have hk : willPrefix ++ t ≠ willPrefix ++ t' := fun e => hn (willPrefix_append_inj.1 e ▸ hct)
  unfold signAt
  rw [creation_apply (willKey_ne_index ht) hk]
  cases u (willPrefix ++ t) with
  | none => rfl
  | some W => exact congrArg Prod.fst (framesOut_creation (willKey_ne_index ht) hk v es u _)

/-- Two will requests of the batch commute up to the order of the indexes. -/
theorem Call.will_swap {c c' : Call} (hc : c.CreatesStr ∨ c.SignsStr) (hc' : c'.CreatesStr ∨ c'.SignsStr)
    (ha : c.WillsApart c') {u : Store} (hu : ∀ t w, c.Signs t w → Unsigned u t w)
    (hu' : ∀ t w, c'.Signs t w → Unsigned u t w) :
    SameIndexes (c'.step (c.step u).1).1 (c.step (c'.step u).1).1 := by
  rcases hc with hc | hc <;> rcases hc' with hc' | hc'
  · -- two creations
    exact (Call.swap_step hc hc' ha.createsApart u).1
  · -- a creation, then a signature
    cases c' with
    | registerPubkey req | approvePublicKey req | createWill req => cases hc'
    | witnessSign req =>
      rcases witnessSign_step req with ⟨-, e⟩ | ⟨t, w, hr, e⟩ <;> rw [e, e]
      · exact .refl _
      · rw [Call.creation_signAt hc (hc' t w hr) (ha.not_creates hr)]
        exact .refl _
  · -- a signature, then a creation
    cases c with
    | registerPubkey req | approvePublicKey req | createWill req => cases hc
    | witnessSign req =>
      rcases witnessSign_step req with ⟨-, e⟩ | ⟨t, w, hr, e⟩ <;> rw [e, e]
      · exact .refl _
      · rw [Call.creation_signAt hc' (hc t w hr) (ha.symm.not_creates hr)]
        exact .refl _
  · -- two signatures, for different testators or witnesses
    cases c <;> cases c' <;> first | cases hc | cases hc' | skip
    rw [witnessSign_comm ha.signsApart (hu · ·) (hu' · ·)]
    exact .refl _

theorem Unsigned.of_apply {u u' : Store} {t w : String} (h : Unsigned u t w)
    (e : u' (willPrefix ++ t) = u (willPrefix ++ t)) : Unsigned u' t w :=
  fun W hW => h W (e ▸ hW)

/-- A will request of the batch that neither creates `t`'s will nor signs it for `w`
keeps the entries naming `w` unsigned. -/
theorem Unsigned.will_step {u : Store} {t w : String} (h : Unsigned u t w) (ht : ∀ x, t ≠ "LIST_" ++ x)
    {c : Call} (hc : c.CreatesStr ∨ c.SignsStr) (hn : ¬ c.Creates t) (hs : ¬ c.Signs t w) :
    Unsigned (c.step u).1 t w := by
  rcases hc with hc | hc
  · rcases Call.creation_step hc with ⟨r, e⟩ | ⟨t', v, es, -, hct, e⟩ <;> rw [e]
    · exact h
    · exact h.of_apply (creation_apply (willKey_ne_index ht)
        (fun e => hn (willPrefix_append_inj.1 e ▸ hct)) v es u)
  · cases c with
    | registerPubkey req | approvePublicKey req | createWill req => cases hc
    | witnessSign req => exact h.witnessSign hs

theorem Unsigned.runStore_wills {s : Store} {t w : String} (h : Unsigned s t w) (ht : ∀ x, t ≠ "LIST_" ++ x) :
    ∀ {cs : List Call}, (∀ c ∈ cs, c.CreatesStr ∨ c.SignsStr) → (∀ c ∈ cs, ¬ c.Creates t ∧ ¬ c.Signs t w) →
      Unsigned (IntkeyWill.runStore s cs) t w
  | [], _, _ => h
  | c :: _, hc, hn =>
    (h.runStore_wills ht (fun c' h' => hc c' (List.mem_cons_of_mem _ h'))
      fun c' h' => hn c' (List.mem_cons_of_mem _ h')).will_step ht (hc c (List.mem_cons_self _ _))
      (hn c (List.mem_cons_self _ _)).1 (hn c (List.mem_cons_self _ _)).2

/-- A batch of creations and signatures leaves in every order ledgers equal but for the
order of the indexes. -/
theorem sameIndexes_runStore_wills {cs cs' : List Call} (hp : cs.Perm cs') (s : Store)
    (hc : ∀ c ∈ cs, c.CreatesStr ∨ c.SignsStr) (hd : cs.Pairwise Call.WillsApart)
    (hs : ∀ c ∈ cs, ∀ t w, c.Signs t w → Unsigned s t w) :
    SameIndexes (runStore s cs) (runStore s cs') := by
  induction hp with
  | nil => exact .refl _
  | cons c _ ih =>
    exact Call.sameIndexes_step (hc c (List.mem_cons_self _ _)) (ih (fun c' h => hc c' (List.mem_cons_of_mem _ h))
      (List.pairwise_cons.1 hd).2 fun c' h => hs c' (List.mem_cons_of_mem _ h))
  | swap c c' cs =>
    obtain ⟨hc', hd'⟩ := List.pairwise_cons.1 hd
    -- both requests still find their entries unsigned after the rest of the batch
    have hu : ∀ c₀ ∈ c' :: c :: cs, (∀ c ∈ cs, c₀.WillsApart c) →
        ∀ t w, c₀.Signs t w → Unsigned (runStore s cs) t w := fun c₀ h₀ ha t w hsw =>
      (hs c₀ h₀ t w hsw).runStore_wills (Call.signs_not_list (hc c₀ h₀) hsw) (fun c h => hc c (by simp [h]))
        fun c h => ⟨(ha c h).symm.not_creates hsw, (ha c h).signsApart t w hsw⟩
    exact Call.will_swap (hc c (by simp)) (hc c' (by simp)) (hc' c (List.mem_cons_self _ _)).symm
      (hu c (by simp) (List.pairwise_cons.1 hd').1) (hu c' (by simp) fun c h => hc' c (List.mem_cons_of_mem _ h))
  | trans hp₁ _ ih₁ ih₂ =>
    exact (ih₁ hc hd hs).trans (ih₂ (fun c h => hc c (hp₁.mem_iff.2 h))
      ((hp₁.pairwise_iff fun h => Call.WillsApart.symm h).1 hd) fun c h => hs c (hp₁.mem_iff.2 h))

/-- Registry requests and will requests never stand in each other's way. -/
theorem Call.registryApart_of_willSide {c : Call} (h : c.willSide) (c' : Call) : c.RegistryApart c' := by
  intro k hk
  cases c with
  | createWill req | witnessSign req => rcases hk with hk | hk <;> cases hk
  | _ => cases h

theorem Call.willsApart_of_not_willSide {c : Call} (h : c.willSide = false) (c' : Call) : c.WillsApart c' := by
  rintro t hk
  cases c with
  | registerPubkey req | approvePublicKey req => rcases hk with hk | ⟨w, hk⟩ <;> cases hk
  | _ => cases h

/-- **The order of a batch of writes**: a batch of registrations and approvals as in
`batch_order`, of creations of wills of string testators whose keys do not start with
`LIST_`, and of signatures of such wills, in which a key named by two registry requests
is approved by both and a will named by two will requests is signed by both for
different witnesses, served on a ledger where no entry a signature names is signed yet,
leaves in every order ledgers that differ at most in the order of the pending-review
list and of the witness indexes. -/
theorem api_batch_order {cs cs' : List Call} (hp : cs.Perm cs') (s : Store)
    (hc : ∀ c ∈ cs, (c.InRegistry ∧ c.RegistryStr) ∨ c.CreatesStr ∨ c.SignsStr)
    (hd : cs.Pairwise fun c c' => c.RegistryApart c' ∧ c.WillsApart c')
    (hs : ∀ c ∈ cs, ∀ t w, c.Signs t w → Unsigned s t w) :
    SameUpToOrder (runStore s cs) (runStore s cs') := by
  refine sameUpToOrder_of_wills hp s
    (fun c h => (hc c h).imp_right fun h => h.elim Call.CreatesStr.willSide Call.SignsStr.willSide)
    (hd.imp And.left) ?_
  -- the will part holds the creations and the signatures
  refine sameIndexes_runStore_wills (hp.filter _) s (fun c hm => ?_)
    ((hd.sublist (List.filter_sublist cs)).imp And.right) fun c hm => hs c (List.mem_filter.1 hm).1
  obtain ⟨hm, hw⟩ := List.mem_filter.1 hm
  exact (hc c hm).resolve_left fun hr => by simp [hr.1.not_willSide] at hw

/-- On a ledger holding `d`'s will with entries for `a` and `c`, `a` and `c` sign it, `e`
registers and `b` writes a will naming `a`; served the other way round, the ledgers are
the same but for the order of the lists. -/
theorem api_batch_order_four :
    let s := Store.empty.put (willPrefix ++ "d") (.obj [("public_key", .str "d"),
      ("witnesses", .arr [.obj [("public_key", .str "a")], .obj [("public_key", .str "c")]])])
    let sign := fun x : String => Call.witnessSign ⟨"GET", none, [("public_key", "d"), ("witness", x)]⟩
    let reg := Call.registerPubkey ⟨"POST", some (.obj [("public_key", .str "e")]), []⟩
    let will := Call.createWill ⟨"POST", some (.obj [("public_key", .str "b"),
      ("witnesses", .arr [.obj [("public_key", .str "a")]])]), []⟩
    (∀ c ∈ [sign "a", reg, will, sign "c"], (c.InRegistry ∧ c.RegistryStr) ∨ c.CreatesStr ∨ c.SignsStr) ∧
      [sign "a", reg, will, sign "c"].Pairwise (fun c c' => c.RegistryApart c' ∧ c.WillsApart c') ∧
      (∀ c ∈ [sign "a", reg, will, sign "c"], ∀ t w, c.Signs t w → Unsigned s t w) ∧
      SameUpToOrder (runStore s [sign "a", reg, will, sign "c"]) (runStore s [sign "c", will, reg, sign "a"]) := by
  intro s sign reg will
  have hreg : RegisterRequest ⟨"POST", some (.obj [("public_key", .str "e")]), []⟩ _ (.str "e") :=
    ⟨rfl, ⟨_, rfl, rfl, rfl⟩, rfl⟩
  have hwill : CreateRequest ⟨"POST", some (.obj [("public_key", .str "b"),
      ("witnesses", .arr [.obj [("public_key", .str "a")]])]), []⟩ _ (.str "b") := ⟨rfl, rfl, rfl, rfl⟩
  -- the signatures name `d`'s will, the creation `b`'s
  have names_sign : ∀ x t, (sign x).NamesWill t → t = "d" := by
    rintro x t (h | ⟨w, h⟩)
    exacts [absurd h id, (Option.some.inj h.key).symm]
  have names_will : ∀ t, will.NamesWill t → t = "b" := by
    rintro t (⟨body, h⟩ | ⟨w, h⟩)
    exacts [(JSON.str.inj (hwill.unique h).2).symm, absurd h id]
  have signs_sign : ∀ x, (sign x).Signs "d" x := fun x => ⟨rfl, rfl, rfl⟩
  have hc : ∀ c ∈ [sign "a", reg, will, sign "c"], (c.InRegistry ∧ c.RegistryStr) ∨ c.CreatesStr ∨ c.SignsStr := by
    have hsign : ∀ x, (sign x).SignsStr := fun x t w h y e => by
      obtain rfl : "d" = t := Option.some.inj h.key
      simp [String.ext_iff] at e
    simp only [List.mem_cons, List.mem_singleton, List.not_mem_nil, or_false]
    rintro c (rfl | rfl | rfl | rfl)
    · exact .inr (.inr (hsign "a"))
    · refine .inl ⟨fun record k h => ?_, fun record pubkey h => ⟨"e", (hreg.unique h).2.symm, by decide⟩⟩
      obtain rfl := JSON.str.inj (hreg.unique h).2
      rintro ⟨_, h⟩
      simp [String.ext_iff, willPrefix] at h
    · exact .inr (.inl fun body pubkey h => ⟨"b", (hwill.unique h).2.symm, fun w e => by simp [String.ext_iff] at e⟩)
    · exact .inr (.inr (hsign "c"))
  have hd : [sign "a", reg, will, sign "c"].Pairwise (fun c c' => c.RegistryApart c' ∧ c.WillsApart c') := by
    refine .cons ?_ (.cons ?_ (.cons ?_ (.cons (fun _ h => absurd h (List.not_mem_nil _)) .nil))) <;>
      simp only [List.mem_cons, List.mem_singleton, List.not_mem_nil, or_false]
    · rintro c (rfl | rfl | rfl)
      · exact ⟨@Call.registryApart_of_willSide (sign "a") rfl reg,
          (@Call.willsApart_of_not_willSide reg rfl (sign "a")).symm⟩
      · exact ⟨@Call.registryApart_of_willSide (sign "a") rfl will,
          fun t h h' => absurd ((names_sign "a" t h).symm.trans (names_will t h')) (by decide)⟩
      · refine ⟨@Call.registryApart_of_willSide (sign "a") rfl (sign "c"), fun t h _ => ?_⟩
        obtain rfl := names_sign "a" t h
        exact ⟨"a", "c", signs_sign "a", signs_sign "c", by decide⟩
    · rintro c (rfl | rfl)
      · exact ⟨(@Call.registryApart_of_willSide will rfl reg).symm, @Call.willsApart_of_not_willSide reg rfl will⟩
      · exact ⟨(@Call.registryApart_of_willSide (sign "c") rfl reg).symm,
          @Call.willsApart_of_not_willSide reg rfl (sign "c")⟩
    · rintro c rfl
      exact ⟨@Call.registryApart_of_willSide will rfl (sign "c"),
        fun t h h' => absurd ((names_will t h).symm.trans (names_sign "c" t h')) (by decide)⟩
  -- no entry of `d`'s will is signed
  have hs : ∀ c ∈ [sign "a", reg, will, sign "c"], ∀ t w, c.Signs t w → Unsigned s t w := by
    rintro c - t w - W hW kvs es rfl hl e he -
    by_cases ht : willPrefix ++ t = willPrefix ++ "d"
    · simp only [s, Store.put_apply, ht, if_true, Option.some.injEq] at hW
      cases hW
      obtain rfl : [JSON.obj [("public_key", .str "a")], .obj [("public_key", .str "c")]] = es :=
        JSON.arr.inj (Option.some.inj hl)
      simp only [List.mem_cons, List.mem_singleton, List.not_mem_nil, or_false] at he
      rcases he with rfl | rfl <;> rfl
    · simp [s, ht] at hW
  exact ⟨hc, hd, hs, api_batch_order (List.reverse_perm _).symm s hc hd hs⟩

end IntkeyWill
