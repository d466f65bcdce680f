import IntkeyWill.Delayed

/-!
# Lists in any interleaving

Without waiting, requests served against the committed state overwrite each other's
writes (`register_lost_update`): a key can drop off the pending-review list, and a
testator off an index.  What they cannot do is add.  Every list a request writes is one
it read from the committed state with its own key or testator added, or with a key
taken off, or a fresh list; and no write puts on a list an element `==` to one already
there.  So in any interleaving of requests and commits, every list the ledger holds, or
has been sent, has no two `==` elements.  It holds only values that were on that list
at the start, keys a registration of the schedule named (on the pending list), and
testators of a creation of the schedule whose will names the witness (on the witness's
index) (`lists_safe`).

The proof is a small program logic.  `Keeps R m Q` says that `m`, served on a ledger
whose lists all satisfy `R`, leaves one, and answers with a value satisfying `Q`.  It is
proved for the client's writes and carried through `bind`; a read sees the committed
state, whose lists satisfy `R`; and each handler is assembled from these rules.

## Main definitions

* `ListsIn`, `LedgerIn` — a value, and a whole ledger, whose lists satisfy `R`.
* `Keeps` — the triple.
* `Call.RegistersKey`, `Call.IndexesUnder`, `Call.Within` — what a request can put on a
  list.
* `Origin` — where an element of a list can come from in a schedule.

## Main results

* `Keeps.bind`, `keeps_set` — the rules.
* `keeps_savePending`, `keeps_approveKey`, `keeps_addToWillLists`, `keeps_saveWill`,
  `keeps_signWill` — the handlers' writes.
* `Call.keeps` — one request.
* `lists_safe` — **in any interleaving, no list gains a stranger or a duplicate**.

## References

`src/sdk/examples/intkey_python/sawtooth_intkey/client_cli/intkey_cli.py`, lines
553–565, 659–668 and 706–719; spec §9.
-/

namespace IntkeyWill

open JSON

/-! ### Lists within a relation -/

/-- If `v`, the value under `k`, is a list, it has no two `==` elements and each of its
elements `x` satisfies `R k x`. -/
def ListsIn (R : String → JSON → Prop) (k : String) (v : JSON) : Prop :=
  ∀ L, v = .arr L → Distinct L ∧ ∀ x ∈ L, R k x

/-- Every committed value, and every submitted write, satisfies `ListsIn R`. -/
structure LedgerIn (R : String → JSON → Prop) (l : Ledger) : Prop where
  committed : ∀ k v, l.committed k = some v → ListsIn R k v
  submitted : ∀ w ∈ l.submitted, ListsIn R w.1 w.2

section Lists

variable {R : String → JSON → Prop} {k : String}

theorem listsIn_obj (kvs : List (String × JSON)) : ListsIn R k (.obj kvs) := fun _ h => by cases h

theorem listsIn_nil : ListsIn R k (.arr []) := fun _ h => by
  cases h
  exact ⟨List.Pairwise.nil, fun _ h => by cases h⟩

theorem ListsIn.mono {R' : String → JSON → Prop} {v : JSON} (h : ListsIn R k v)
    (hR : ∀ k x, R k x → R' k x) : ListsIn R' k v := fun L hL =>
  let ⟨hd, hx⟩ := h L hL
  ⟨hd, fun x hm => hR k x (hx x hm)⟩

/-- The set insertion of an element the relation allows. -/
theorem ListsIn.appendNew {L : List JSON} (h : ListsIn R k (.arr L)) {x : JSON} (hx : R k x) :
    ListsIn R k (.arr (appendNew L x)) := by
  obtain ⟨hd, hL⟩ := h L rfl
  rintro _ ⟨⟩
  refine ⟨hd.appendNew x, fun y hy => ?_⟩
  rcases mem_appendNew hy with hy | rfl
  exacts [hL y hy, hx]

/-- `register_pubkey`'s pending list: the list it read with the key added. -/
theorem ListsIn.pendingAfter {l X pubkey : JSON} (hl : ListsIn R k l) (hp : R k pubkey)
    (h : pendingAfter l pubkey = .ok X) : ListsIn R k X := by
  by_cases hn : l = .null
  · subst hn
    rw [pendingAfter_null] at h
    cases h
    have h₁ : ListsIn R k (.arr (JSON.appendNew [] pubkey)) := listsIn_nil.appendNew hp
    simpa [JSON.appendNew] using h₁
  by_cases ha : ∃ L, l = .arr L
  · obtain ⟨L, rfl⟩ := ha
    rw [pendingAfter_arr] at h
    cases h
    exact hl.appendNew hp
  · obtain ⟨rfl, -⟩ := pendingAfter_of_not_arr hn (fun L e => ha ⟨L, e⟩) h
    exact hl

/-- `approve_public_key`'s pending list: the list it read with the key taken off. -/
theorem ListsIn.removeIfPresent {l X : JSON} {k' : String} (hl : ListsIn R k l)
    (h : removeIfPresent l (.str k') = .ok X) : ListsIn R k X := by
  by_cases ha : ∃ L, l = .arr L
  · obtain ⟨L, rfl⟩ := ha
    rw [removeIfPresent_str] at h
    cases h
    obtain ⟨hd, hL⟩ := hl L rfl
    rintro _ ⟨⟩
    exact ⟨hd.erase _, fun x hx => hL x (List.mem_of_mem_erase hx)⟩
  · obtain ⟨rfl, -⟩ := removeIfPresent_of_not_arr (fun L e => ha ⟨L, e⟩) h
    exact hl

/-- `create_will`'s index: the list it read with the testator added. -/
theorem ListsIn.willListAfter {prev v pubkey : JSON} (hl : ListsIn R k prev) (hp : R k pubkey)
    (h : willListAfter prev pubkey = .ok (some v)) : ListsIn R k v := by
  obtain ⟨L, rfl, rfl⟩ := willListAfter_some h
  rw [willListAfter_arr] at h
  split at h
  · cases h
  · rename_i hany
    have e : L ++ [pubkey] = JSON.appendNew L pubkey := by simp [JSON.appendNew, hany]
    rw [e]
    exact hl.appendNew hp

theorem LedgerIn.mono {R' : String → JSON → Prop} {l : Ledger} (h : LedgerIn R l)
    (hR : ∀ k x, R k x → R' k x) : LedgerIn R' l :=
  ⟨fun k v hk => (h.committed k v hk).mono hR, fun w hw => (h.submitted w hw).mono hR⟩

theorem LedgerIn.submit {l : Ledger} (h : LedgerIn R l) {v : JSON} (hv : ListsIn R k v) :
    LedgerIn R (l.submit k v) :=
  ⟨h.committed, fun w hw => by
    rcases List.mem_append.1 hw with hw | hw
    · exact h.submitted w hw
    · rw [List.mem_singleton.1 hw]
      exact hv⟩

/-- A commit applies a write that was sent. -/
theorem LedgerIn.commit {l : Ledger} (h : LedgerIn R l) : LedgerIn R l.commit := by
  obtain ⟨s, _ | ⟨⟨k, v⟩, ws⟩⟩ := l
  · exact h
  refine ⟨fun k' v' hk' => ?_, fun w hw => h.submitted w (List.mem_cons_of_mem _ hw)⟩
  change (s.put k v) k' = some v' at hk'
  rw [Store.put_apply] at hk'
  split at hk'
  · rename_i e
    cases hk'
    exact e ▸ h.submitted (k, v) (List.mem_cons_self _ _)
  · exact h.committed k' v' hk'

/-- A missing index is read as an empty list. -/
theorem LedgerIn.getD {l : Ledger} (h : LedgerIn R l) (k : String) :
    ListsIn R k ((l.committed k).getD (.arr [])) := by
  cases hk : l.committed k with
  | none => exact listsIn_nil
  | some v => exact h.committed k v hk

end Lists

/-! ### The triple -/

/-- Served on a ledger whose lists satisfy `R`, `m` leaves one, and answers with a value
satisfying `Q`. -/
def Keeps {α : Type} (R : String → JSON → Prop) (m : Py Ledger α) (Q : α → Prop) : Prop :=
  ∀ l, LedgerIn R l → LedgerIn R (m l).1 ∧ ∀ a, (m l).2 = .ok a → Q a

section Keeps

variable {α β : Type} {R : String → JSON → Prop}

theorem keeps_pure (a : α) : Keeps R (pure a) fun b => b = a :=
  fun _ hl => ⟨hl, fun _ e => (Except.ok.inj e).symm⟩

theorem keeps_lift (x : Except PyErr α) : Keeps R (monadLift x) fun a => x = .ok a :=
  fun _ hl => ⟨hl, fun _ e => e⟩

/-- A step that leaves the ledger. -/
theorem keeps_const (r : Except PyErr α) : Keeps R (fun l => (l, r)) fun _ => True :=
  fun _ hl => ⟨hl, fun _ _ => trivial⟩

theorem Keeps.mono {m : Py Ledger α} {Q Q' : α → Prop} (h : Keeps R m Q) (hQ : ∀ a, Q a → Q' a) :
    Keeps R m Q' := fun l hl =>
  let ⟨h₁, h₂⟩ := h l hl
  ⟨h₁, fun a e => hQ a (h₂ a e)⟩

theorem Keeps.bind {m : Py Ledger α} {f : α → Py Ledger β} {P : α → Prop} {Q : β → Prop}
    (hm : Keeps R m P) (hf : ∀ a, P a → Keeps R (f a) Q) : Keeps R (m >>= f) Q := fun l hl => by
  simp only [Py.run_bind]
  obtain ⟨h₁, h₂⟩ := hm l hl
  revert h₁ h₂
  obtain ⟨l', r⟩ := m l
  intro h₁ h₂
  cases r with
  | error e => exact ⟨h₁, fun _ e' => by cases e'⟩
  | ok a => exact hf a (h₂ a rfl) l' h₁

/-- A write of a value the relation allows. -/
theorem keeps_set {k : String} {v : JSON} (hv : ListsIn R k v) :
    Keeps R (Ledger.client.set (.str k) v) fun _ => True :=
  fun _ hl => ⟨hl.submit hv, fun _ _ => trivial⟩

/-- A write of a dict, under a key that may not be a string. -/
theorem keeps_set_obj (key : JSON) (kvs : List (String × JSON)) :
    Keeps R (Ledger.client.set key (.obj kvs)) fun _ => True := by
  cases key with
  | str k => exact keeps_set (listsIn_obj kvs)
  | _ => exact keeps_const _

end Keeps

/-! ### The handlers' writes -/

section Handlers

variable {R : String → JSON → Prop}

/-- `register_pubkey` writes the pending list it read, with its key added, or a fresh
one. -/
theorem keeps_savePending {pubkey : JSON} (hp : R keyNeedReview pubkey) :
    Keeps R (savePending Ledger.client pubkey) fun _ => True := fun l hl => by
  rw [savePending_reads Ledger.readsFrom]
  cases hk : l.committed keyNeedReview with
  | none =>
    have h₁ : LedgerIn R (l.submit keyNeedReview (.arr [])) := hl.submit listsIn_nil
    exact ⟨h₁.submit (listsIn_nil.appendNew hp), fun _ _ => trivial⟩
  | some v =>
    dsimp only
    cases hX : pendingAfter v pubkey with
    | error e => exact ⟨hl, fun _ _ => trivial⟩
    | ok X => exact ⟨hl.submit ((hl.committed _ _ hk).pendingAfter hp hX), fun _ _ => trivial⟩

/-- `approve_public_key` writes the record it read, marked, and the pending list it read,
with the key taken off. -/
theorem keeps_approveKey (k : String) : Keeps R (approveKey Ledger.client k) fun _ => True := fun l hl => by
  rw [approveKey_reads Ledger.readsFrom]
  cases l.committed k with
  | none => exact ⟨hl, fun _ _ => trivial⟩
  | some b =>
    dsimp only
    cases hb : setItem b "status" (.str "approved") with
    | error e => exact ⟨hl, fun _ _ => trivial⟩
    | ok body =>
      obtain ⟨kvs, -, rfl⟩ := setItem_eq_ok.1 hb
      have h₁ : LedgerIn R (l.submit k (.obj (setField "status" (.str "approved") kvs))) :=
        hl.submit (listsIn_obj _)
      dsimp only
      rw [Ledger.committed_submit]
      cases hK : l.committed keyNeedReview with
      | none => exact ⟨h₁, fun _ _ => trivial⟩
      | some v =>
        dsimp only
        cases hL : removeIfPresent v (.str k) with
        | error e => exact ⟨h₁, fun _ _ => trivial⟩
        | ok L => exact ⟨h₁.submit ((hl.committed _ _ hK).removeIfPresent hL), fun _ _ => trivial⟩

/-- A pass of `create_will`'s witness loop writes the index it read, with the testator
added. -/
theorem keeps_addToWillList {pubkey wn : JSON}
    (hp : ∀ w, getItem wn "public_key" = .ok (.str w) → R (willListPrefix ++ w) pubkey) :
    Keeps R (addToWillList Ledger.client pubkey wn) fun _ => True := fun l hl => by
  rw [addToWillList_reads Ledger.readsFrom]
  cases hk : getItem wn "public_key" >>= strAdd willListPrefix with
  | error e => exact ⟨hl, fun _ _ => trivial⟩
  | ok key =>
    obtain ⟨x, hx, hs⟩ := except_bind_eq_ok.1 hk
    obtain ⟨w, rfl, rfl⟩ := strAdd_eq_ok.1 hs
    dsimp only
    cases hv : willListAfter ((l.committed (willListPrefix ++ w)).getD (.arr [])) pubkey with
    | error e => exact ⟨hl, fun _ _ => trivial⟩
    | ok r =>
      cases r with
      | none => exact ⟨hl, fun _ _ => trivial⟩
      | some v => exact ⟨hl.submit ((hl.getD _).willListAfter (hp w hx) hv), fun _ _ => trivial⟩

theorem keeps_addToWillLists {pubkey : JSON} : ∀ {es : List JSON},
    (∀ wn ∈ es, ∀ w, getItem wn "public_key" = .ok (.str w) → R (willListPrefix ++ w) pubkey) →
      Keeps R (addToWillLists Ledger.client pubkey es) fun _ => True
  | [], _ => (keeps_pure ()).mono fun _ _ => trivial
  | wn :: _, h => (keeps_addToWillList (h wn (List.mem_cons_self _ _))).bind fun _ _ =>
      keeps_addToWillLists fun wn' h' => h wn' (List.mem_cons_of_mem _ h')

/-- `create_will` writes the indexes of the witnesses its will names, with its testator
added, and the will, a dict. -/
theorem keeps_saveWill {body pubkey : JSON} (hb : ∃ kvs, body = .obj kvs)
    (hp : ∀ es, WitnessEntries body es → ∀ wn ∈ es, ∀ w, getItem wn "public_key" = .ok (.str w) →
      R (willListPrefix ++ w) pubkey) :
    Keeps R (saveWill Ledger.client body pubkey) fun _ => True := by
  -- the will is stored under its testator's key
  have store : ∀ body', (∃ kvs, body' = .obj kvs) → Keeps R (liftM (strAdd willPrefix pubkey) >>=
      fun key => Ledger.client.set (.str key) body') fun _ => True := by
    rintro _ ⟨kvs, rfl⟩
    exact (keeps_lift _).bind fun _ _ => keeps_set (listsIn_obj kvs)
  unfold saveWill
  refine (keeps_lift _).bind fun b hn => ?_
  cases b
  · simp only [Bool.false_eq_true, ite_false]
    exact (keeps_lift _).bind fun ws hws => (keeps_lift _).bind fun es hes =>
      (keeps_addToWillLists (hp es ⟨hn, by rw [hws]; exact hes⟩)).bind fun _ _ =>
        (keeps_pure body).bind fun body' e => store body' (e ▸ hb)
  · simp only [ite_true]
    refine (keeps_lift _).bind fun body' hs => store body' ?_
    obtain ⟨kvs, rfl⟩ := hb
    obtain ⟨kvs', -, rfl⟩ := setItem_eq_ok.1 hs
    exact ⟨_, rfl⟩

/-- `witness_sign` writes back the will it read, signed: a dict. -/
theorem keeps_signWill (t w : String) : Keeps R (signWill Ledger.client t w) fun _ => True := fun l hl => by
  rw [signWill_reads Ledger.readsFrom]
  cases l.committed (willPrefix ++ t) with
  | none => exact ⟨hl, fun _ _ => trivial⟩
  | some W =>
    dsimp only
    cases hs : signBody W w with
    | error e => exact ⟨hl, fun _ _ => trivial⟩
    | ok r =>
      cases r with
      | none => exact ⟨hl, fun _ _ => trivial⟩
      | some W' =>
        obtain ⟨kvs, es, -, -, -, -, rfl⟩ := signBody_eq_some.1 hs
        have hW : ListsIn R (willPrefix ++ t) (signedWill kvs es w) := by
          unfold signedWill
          split <;> exact listsIn_obj _
        exact ⟨hl.submit hW, fun _ _ => trivial⟩

end Handlers

/-! ### Requests and schedules -/

/-- The call registers the key `x`, whatever JSON value it is. -/
def Call.RegistersKey (x : JSON) : Call → Prop
  | .registerPubkey req => ∃ record, RegisterRequest req record x
  | _ => False

/-- The call creates a will of the testator `x` with an entry naming the witness `w`. -/
def Call.IndexesUnder (w : String) (x : JSON) : Call → Prop
  | .createWill req => ∃ body es, CreateRequest req body x ∧ WitnessEntries body es ∧
      ∃ wn ∈ es, getItem wn "public_key" = .ok (.str w)
  | _ => False

/-- What the call can put on a list is allowed by `R`: the key it registers on the
pending list, its testator on the index of each witness its will names. -/
structure Call.Within (R : String → JSON → Prop) (c : Call) : Prop where
  registers : ∀ x, c.RegistersKey x → R keyNeedReview x
  indexes : ∀ w x, c.IndexesUnder w x → R (willListPrefix ++ w) x

/-- Served on the ledger under delayed commit, a request keeps its lists within `R`. -/
theorem Call.keeps {R : String → JSON → Prop} {c : Call} (hc : c.Within R) :
    Keeps R (c.handle Ledger.client) fun _ => True := by
  cases c with
  | registerPubkey req =>
    show Keeps R (IntkeyWill.registerPubkey Ledger.client req) _
    rcases registerPubkey_front req with ⟨r, -, -, h⟩ | ⟨record, pubkey, hreq, h⟩
    · exact funext (h Ledger.client) ▸ keeps_const r
    · obtain ⟨kvs, rfl⟩ := obj_of_getItem_eq_ok hreq.key
      exact funext (h Ledger.client) ▸ (keeps_savePending (hc.registers pubkey ⟨_, hreq⟩)).bind
        fun _ _ => (keeps_set_obj pubkey kvs).bind fun _ _ => (keeps_pure _).mono fun _ _ => trivial
  | approvePublicKey req =>
    show Keeps R (IntkeyWill.approvePublicKey Ledger.client req) _
    rcases approvePublicKey_front req with ⟨r, -, -, h⟩ | ⟨k, -, h⟩
    · exact funext (h Ledger.client) ▸ keeps_const r
    · exact funext (h Ledger.client) ▸
        (keeps_approveKey k).bind fun _ _ => (keeps_pure _).mono fun _ _ => trivial
  | createWill req =>
    show Keeps R (IntkeyWill.createWill Ledger.client req) _
    rcases createWill_front req with ⟨r, -, -, h⟩ | ⟨body, pubkey, hreq, h⟩
    · exact funext (h Ledger.client) ▸ keeps_const r
    · exact funext (h Ledger.client) ▸ (keeps_saveWill (obj_of_getItem_eq_ok hreq.key)
        fun es hes wn hwn w hw => hc.indexes w pubkey ⟨body, es, hreq, hes, wn, hwn, hw⟩).bind
          fun _ _ => (keeps_pure _).mono fun _ _ => trivial
  | witnessSign req =>
    show Keeps R (IntkeyWill.witnessSign Ledger.client req) _
    rcases witnessSign_front req with ⟨r, -, -, h⟩ | ⟨t, w, -, h⟩
    · exact funext (h Ledger.client) ▸ keeps_const r
    · exact funext (h Ledger.client) ▸ keeps_signWill t w

/-- Where an element of the list under `k` can come from in a schedule that served `cs`:
the list under `k` at the start; for the pending list, a registration of `cs`; for the
index of `w`, a creation of `cs` whose will names `w`. -/
def Origin (s : Store) (cs : List Call) (k : String) (x : JSON) : Prop :=
  (∃ L, s k = some (.arr L) ∧ x ∈ L) ∨ (k = keyNeedReview ∧ ∃ c ∈ cs, c.RegistersKey x) ∨
    ∃ w, k = willListPrefix ++ w ∧ ∃ c ∈ cs, c.IndexesUnder w x

theorem Origin.cons {s : Store} {cs : List Call} {k : String} {x : JSON} (h : Origin s cs k x) (c : Call) :
    Origin s (c :: cs) k x := by
  rcases h with h | ⟨hk, c', hc', h⟩ | ⟨w, hk, c', hc', h⟩
  · exact .inl h
  · exact .inr (.inl ⟨hk, c', List.mem_cons_of_mem c hc', h⟩)
  · exact .inr (.inr ⟨w, hk, c', List.mem_cons_of_mem c hc', h⟩)

/-- **No list gains a stranger or a duplicate, in any interleaving**: from a ledger whose
lists have no two `==` elements, in every schedule of requests and commits, waiting or
not, every list committed or submitted under a key `k` has no two `==` elements, and each
element was on the list under `k` at the start, or is a key a registration of the
schedule named (on the pending list), or the testator of a creation of the schedule whose
will names the witness `w` (on the index of `w`). -/
theorem lists_safe (s : Store) (hs : ∀ k L, s k = some (.arr L) → Distinct L) :
    ∀ es : List Event, LedgerIn (Origin s (served es)) (runFrom s es)
  | [] => ⟨fun k v hk L hL => ⟨hs k L (hL ▸ hk), fun x hx => .inl ⟨L, hL ▸ hk, hx⟩⟩, fun _ h => by cases h⟩
  | .serve c :: es =>
    (Call.keeps ⟨fun x h => .inr (.inl ⟨rfl, c, List.mem_cons_self _ _, h⟩),
      fun w x h => .inr (.inr ⟨w, rfl, c, List.mem_cons_self _ _, h⟩)⟩ _
      ((lists_safe s hs es).mono fun _ _ h => h.cons c)).1
  | .commit :: es => (lists_safe s hs es).commit

/-- The two schedules of `register_lost_update`, from the empty ledger: the registrations
lose a key, and gain none. -/
theorem lists_safe_lost_update :
    let ra := Call.registerPubkey ⟨"POST", some (.obj [("public_key", .str "a")]), []⟩
    let rb := Call.registerPubkey ⟨"POST", some (.obj [("public_key", .str "b")]), []⟩
    let app := Call.approvePublicKey ⟨"GET", none, [("public_key", "a")]⟩
    (∀ k L, Store.empty k = some (.arr L) → Distinct L) ∧
      LedgerIn (Origin Store.empty (served [.serve rb, .serve ra]))
        (runFrom Store.empty [.serve rb, .serve ra]) ∧
      LedgerIn (Origin Store.empty (served [.serve rb, .serve app, .commit, .commit, .commit, .serve ra]))
        (runFrom Store.empty [.serve rb, .serve app, .commit, .commit, .commit, .serve ra]) := by
  intro ra rb app
  have hs : ∀ k L, Store.empty k = some (.arr L) → Distinct L := fun k L h => by simp at h
  exact ⟨hs, lists_safe Store.empty hs _, lists_safe Store.empty hs _⟩

end IntkeyWill
