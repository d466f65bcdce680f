import IntkeyWill.Retry

/-!
# The ledger under delayed commit

`start` leaves `--wait` unset, and then `client.set` returns as soon as its batch is
submitted: the validator applies the write later, and `client.show` reads what it has
applied so far.  There is no lock and no compare-and-swap, so a handler's
read-modify-write of the pending-review list, of a witness index or of a record can
overwrite a write it never saw.

`Ledger` is that ledger: the committed state, and the writes submitted since, which
`Ledger.commit` applies one at a time, oldest first.  A schedule is a list of events,
each the serving of a request or one commit.  A request is served as a whole between
two commits, so all its reads see the state committed when it started.

Without waiting, writes are lost: in `register_lost_update` two registrations leave
only the later key on the pending-review list, and a registration puts back a key an
approval had just taken off.  With waiting, where each request is served only once
every write before it has been applied, the ledger settles to the ledger with immediate
commit (`runFrom_settled`).  So the guarantees of immediate commit hold again
(`waiting_no_lost_update`).

## Main definitions

* `Ledger`, `Ledger.client`, `Ledger.commit`, `Ledger.settled` — the ledger, its client,
  one commit, and the state once every submitted write is applied.
* `Settles` — a step on the ledger under delayed commit settles as a step on the
  settled ledger.
* `Event`, `runFrom`, `served`, `Waits` — schedules, the ledger after one, the requests
  it serves, and the waiting discipline.

## Main results

* `Call.settles` — served on a ledger with nothing pending, a request settles as under
  immediate commit, unless it approves `KEY_NEED_REVIEW` or creates a will whose
  testator is not `==` to itself.
* `runFrom_settled` — under waiting, a schedule settles to the immediate-commit ledger
  of the requests it serves.
* `register_lost_update` — without waiting, writes are lost.
* `waiting_no_lost_update` — under waiting, two registrations keep both keys, two wills
  naming a common witness are both on its index, and an approval is not undone by the
  next registration.

## References

`src/sdk/examples/intkey_python/sawtooth_intkey/client_cli/intkey_cli.py`, lines 390–395
(`--wait`), 553–565, 659–668 and 706–719; spec §5 and §9.
-/

namespace IntkeyWill

open JSON

/-! ### The ledger -/

/-- Modelled from the spec: the ledger as `client.set` without `wait` leaves it.  The
validator has committed `committed`, which `client.show` reads; `submitted` are the
writes submitted since, oldest first, which it applies later, in that order. -/
structure Ledger where
  /-- The state the validator has committed. -/
  committed : Store
  /-- The writes submitted and not yet applied, oldest first. -/
  submitted : List (String × JSON)

namespace Ledger

/-- Submit the write of `v` under `k`. -/
def submit (l : Ledger) (k : String) (v : JSON) : Ledger := ⟨l.committed, l.submitted ++ [(k, v)]⟩

/-- Modelled from the spec: `IntkeyClient.show` through `get_value`, which reads the
committed state. -/
def getValue : JSON → Py Ledger JSON
  | .str k => fun l => (l, l.committed.lookup k)
  | _ => fun l => (l, .error .invalidKey)

/-- Modelled from the spec: `IntkeyClient.set` with `wait` unset, which submits the write
and returns at once. -/
def set : JSON → JSON → Py Ledger Unit
  | .str k, v => fun l => (l.submit k v, .ok ())
  | _, _ => fun l => (l, .error .invalidKey)

/-- The client over the ledger under delayed commit. -/
def client : Client Ledger := ⟨getValue, set⟩

theorem readsFrom : ReadsFrom client committed submit :=
  ⟨fun _ _ => rfl, fun _ _ _ => rfl, fun key _ _ hk => by cases key <;> first | rfl | exact absurd rfl (hk _)⟩

/-- The validator applies the oldest submitted write. -/
def commit (l : Ledger) : Ledger :=
  match l.submitted with
  | [] => l
  | (k, v) :: ws => ⟨l.committed.put k v, ws⟩

/-- The ledger once every submitted write is applied. -/
def settled (l : Ledger) : Store := l.submitted.foldl (fun s w => s.put w.1 w.2) l.committed

@[simp] theorem settled_nil (s : Store) : settled ⟨s, []⟩ = s := rfl

@[simp] theorem committed_submit (l : Ledger) (k : String) (v : JSON) :
    (l.submit k v).committed = l.committed := rfl

@[simp] theorem settled_submit (l : Ledger) (k : String) (v : JSON) :
    (l.submit k v).settled = l.settled.put k v := by
  simp [submit, settled, List.foldl_append]

/-- A commit changes nothing the ledger settles to. -/
@[simp] theorem settled_commit (l : Ledger) : l.commit.settled = l.settled := by
  obtain ⟨s, _ | ⟨⟨k, v⟩, ws⟩⟩ := l <;> rfl

/-- With nothing submitted, the ledger is its committed state. -/
theorem eq_of_submitted_nil {l : Ledger} (h : l.submitted = []) : l = ⟨l.settled, []⟩ := by
  obtain ⟨s, ws⟩ := l
  subst h
  rfl

end Ledger

/-! ### Steps that settle alike -/

/-- Served on the ledger `l` under delayed commit, `m` leaves a ledger that settles to
what `m'` leaves of the settled ledger, and gives the same result. -/
def Settles {α : Type} (m : Py Ledger α) (m' : Py Store α) (l : Ledger) : Prop :=
  ((m l).1.settled, (m l).2) = m' l.settled

section Settles

variable {α β : Type}

theorem settles_pure (a : α) (l : Ledger) : Settles (pure a) (pure a) l := rfl

theorem settles_lift (x : Except PyErr α) (l : Ledger) : Settles (monadLift x) (monadLift x) l := rfl

theorem settles_set (key v : JSON) (l : Ledger) :
    Settles (Ledger.client.set key v) (Store.client.set key v) l := by
  cases key <;> simp [Settles, Ledger.client, Ledger.set, Store.client, Store.set]

/-- Steps that settle alike, followed by steps that settle alike, settle alike. -/
theorem Settles.bind {m : Py Ledger α} {m' : Py Store α} {f : α → Py Ledger β}
    {f' : α → Py Store β} {l : Ledger} (h : Settles m m' l)
    (hf : ∀ a, Settles (f a) (f' a) (m l).1) : Settles (m >>= f) (m' >>= f') l := by
  unfold Settles at h ⊢
  simp only [Py.run_bind, ← h]
  cases hm : m l with
  | mk l₁ r =>
    cases r with
    | error e => rfl
    | ok a => simpa [hm] using hf a

end Settles

/-- `register_pubkey` reads the pending list before it writes anything. -/
theorem settles_savePending {l : Ledger} (hk : l.committed keyNeedReview = l.settled keyNeedReview)
    (pubkey : JSON) : Settles (savePending Ledger.client pubkey) (savePending Store.client pubkey) l := by
  unfold Settles
  rw [savePending_reads Ledger.readsFrom, savePending_reads Store.readsFrom, hk]
  cases l.settled keyNeedReview with
  | none => simp [Ledger.client, Ledger.set]
  | some v => cases hp : pendingAfter v pubkey <;> simp [hp, Ledger.client, Ledger.set]

theorem settles_registerPubkey (req : Request) (s : Store) :
    Settles (registerPubkey Ledger.client req) (registerPubkey Store.client req) ⟨s, []⟩ := by
  rcases registerPubkey_front req with ⟨r, -, -, h⟩ | ⟨record, pubkey, -, h⟩
  · simp [Settles, h]
  · have e : ∀ {σ : Type} (c : Client σ), registerPubkey c req
        = savePending c pubkey >>= fun _ => (c.set pubkey record >>= fun _ => pure (wrapResponse processing 200)) :=
      fun c => funext (h c)
    rw [e, e]
    exact Settles.bind (settles_savePending rfl pubkey) fun _ =>
      Settles.bind (settles_set _ _ _) fun _ => settles_pure _ _

/-- `approve_public_key` reads the pending list after it wrote the record, so the two
settle alike when the record is not the list. -/
theorem settles_approveKey {k : String} (hk : k ≠ keyNeedReview) (s : Store) :
    Settles (approveKey Ledger.client k) (approveKey Store.client k) ⟨s, []⟩ := by
  unfold Settles
  rw [approveKey_reads Ledger.readsFrom, approveKey_reads Store.readsFrom]
  simp only [Ledger.settled_nil, Ledger.committed_submit]
  cases s k with
  | none => rfl
  | some b =>
  dsimp only
  cases setItem b "status" (.str "approved") with
  | error e => rfl
  | ok body =>
  dsimp only
  rw [show (s.put k body) keyNeedReview = s keyNeedReview by simp [Ne.symm hk]]
  cases s keyNeedReview with
  | none => simp
  | some l =>
    dsimp only
    cases removeIfPresent l (.str k) <;> simp

theorem settles_approvePublicKey (req : Request) (hreq : ¬ ApproveRequest req keyNeedReview) (s : Store) :
    Settles (approvePublicKey Ledger.client req) (approvePublicKey Store.client req) ⟨s, []⟩ := by
  rcases approvePublicKey_front req with ⟨r, -, -, h⟩ | ⟨k, hk, h⟩
  · simp [Settles, h]
  · have e : ∀ {σ : Type} (c : Client σ), approvePublicKey c req
        = approveKey c k >>= fun body => pure (wrapResponse body 200) := fun c => funext (h c)
    rw [e, e]
    exact Settles.bind (settles_approveKey (fun e => hreq (e ▸ hk)) s) fun _ => settles_pure _ _

theorem settles_witnessSign (req : Request) (s : Store) :
    Settles (witnessSign Ledger.client req) (witnessSign Store.client req) ⟨s, []⟩ := by
  rcases witnessSign_front req with ⟨r, -, -, h⟩ | ⟨t, w, -, h⟩
  · simp [Settles, h]
  · unfold Settles
    rw [h, h, signWill_reads Ledger.readsFrom, signWill_reads Store.readsFrom]
    simp only [Ledger.settled_nil]
    cases s (willPrefix ++ t) with
    | none => rfl
    | some W =>
      dsimp only
      cases signBody W w with
      | error e => rfl
      | ok r => cases r <;> simp

/-! ### The witness loop under delayed commit -/

/-- While the witness loop runs on the ledger under delayed commit from the committed
state `s`, every index of the settled ledger `u` is as committed, or holds what the
loop's first pass over it wrote: an index with the testator on it.  The loop may read
an index it wrote already; it then reads the committed one, and writes the same again. -/
def LoopAlike (pubkey : JSON) (s u : Store) : Prop :=
  ∀ key, u key = s key ∨ ∃ v, willListAfter ((s key).getD (.arr [])) pubkey = .ok (some v) ∧
    u key = some v ∧ willListAfter v pubkey = .ok none

/-- What a pass writes has the testator on it, for a testator `==` to itself. -/
theorem willListAfter_found {prev v pubkey : JSON} (hp : pyEq pubkey pubkey = true)
    (h : willListAfter prev pubkey = .ok (some v)) : willListAfter v pubkey = .ok none := by
  obtain ⟨L, -, rfl⟩ := willListAfter_some h
  simp [willListAfter_arr, hp]

theorem settles_addToWillList {pubkey : JSON} (hp : pyEq pubkey pubkey = true) (wn : JSON) {l : Ledger}
    (h : LoopAlike pubkey l.committed l.settled) :
    Settles (addToWillList Ledger.client pubkey wn) (addToWillList Store.client pubkey wn) l ∧
      (addToWillList Ledger.client pubkey wn l).1.committed = l.committed ∧
      LoopAlike pubkey l.committed (addToWillList Ledger.client pubkey wn l).1.settled := by
  unfold Settles
  rw [addToWillList_reads Ledger.readsFrom, addToWillList_reads Store.readsFrom]
  cases getItem wn "public_key" >>= strAdd willListPrefix with
  | error e => exact ⟨rfl, rfl, h⟩
  | ok key =>
  dsimp only
  rcases h key with hk | ⟨v, hv, hu, hc⟩
  · -- the index is as committed: both passes read it alike
    rw [hk]
    cases hl : willListAfter ((l.committed key).getD (.arr [])) pubkey with
    | error e => exact ⟨rfl, rfl, h⟩
    | ok r =>
      cases r with
      | none => exact ⟨rfl, rfl, h⟩
      | some v =>
        refine ⟨by simp, rfl, fun key' => ?_⟩
        by_cases e : key' = key
        · subst e
          exact .inr ⟨v, hl, by simp, willListAfter_found hp hl⟩
        · simpa [e] using h key'
  · -- an earlier pass wrote the index: the store's pass writes nothing, the ledger's
    -- writes the same again
    have e : (l.submit key v).settled = l.settled := by simp [Store.put_self hu]
    rw [hv, hu]
    simp only [Option.getD_some, hc]
    exact ⟨by rw [e], rfl, e ▸ h⟩

/-- **The witness loop settles alike** under delayed commit, for a testator `==` to
itself. -/
theorem settles_addToWillLists {pubkey : JSON} (hp : pyEq pubkey pubkey = true) :
    ∀ (es : List JSON) {l : Ledger}, LoopAlike pubkey l.committed l.settled →
      Settles (addToWillLists Ledger.client pubkey es) (addToWillLists Store.client pubkey es) l
  | [], _, _ => rfl
  | wn :: es, l, h => by
    obtain ⟨h₁, hc, h₂⟩ := settles_addToWillList hp wn h
    exact Settles.bind h₁ fun _ => settles_addToWillLists hp es (by rw [hc]; exact h₂)

theorem settles_saveWill (body pubkey : JSON) (hp : pyEq pubkey pubkey = true) (s : Store) :
    Settles (saveWill Ledger.client body pubkey) (saveWill Store.client body pubkey) ⟨s, []⟩ := by
  -- the will is stored under its testator's key once its body is known
  have store : ∀ body' l, Settles (liftM (strAdd willPrefix pubkey) >>= fun key => Ledger.client.set (.str key) body')
      (liftM (strAdd willPrefix pubkey) >>= fun key => Store.client.set (.str key) body') l :=
    fun _ _ => Settles.bind (settles_lift _ _) fun _ => settles_set _ _ _
  unfold saveWill
  refine Settles.bind (settles_lift _ _) fun b => ?_
  cases b
  · simp only [Bool.false_eq_true, ite_false]
    exact Settles.bind (settles_lift _ _) fun ws => Settles.bind (settles_lift _ _) fun es =>
      Settles.bind (settles_addToWillLists hp es fun _ => .inl rfl) fun _ =>
        Settles.bind (settles_pure _ _) fun body' => store body' _
  · simp only [ite_true]
    exact Settles.bind (settles_lift _ _) fun body' => store body' _

theorem settles_createWill (req : Request) (hreq : KeySelfEqual req) (s : Store) :
    Settles (createWill Ledger.client req) (createWill Store.client req) ⟨s, []⟩ := by
  rcases createWill_front req with ⟨r, -, -, h⟩ | ⟨body, pubkey, hc, h⟩
  · simp [Settles, h]
  · have e : ∀ {σ : Type} (c : Client σ), createWill c req
        = saveWill c body pubkey >>= fun _ => pure (wrapResponse processing 200) := fun c => funext (h c)
    rw [e, e]
    exact Settles.bind (settles_saveWill body pubkey (hreq.create hc) s) fun _ => settles_pure _ _

/-! ### Requests served with nothing pending -/

/-- The requests that settle under delayed commit as under immediate commit when served
with nothing pending: all but an approval of `KEY_NEED_REVIEW` itself, which reads the
pending list after writing it, and a will whose testator is not `==` to itself, whose
witness loop may read an index again after writing it. -/
def Call.SettlesAlike : Call → Prop
  | .approvePublicKey req => ¬ ApproveRequest req keyNeedReview
  | .createWill req => KeySelfEqual req
  | _ => True

/-- Served on a ledger with nothing pending, a request settles as under immediate commit,
and gets the same answer. -/
theorem Call.settles (c : Call) (hc : c.SettlesAlike) (s : Store) :
    Settles (c.handle Ledger.client) (c.handle Store.client) ⟨s, []⟩ :=
  match c, hc with
  | .registerPubkey req, _ => settles_registerPubkey req s
  | .approvePublicKey req, hc => settles_approvePublicKey req hc s
  | .createWill req, hc => settles_createWill req hc s
  | .witnessSign req, _ => settles_witnessSign req s

/-! ### Schedules -/

/-- What happens next on the ledger. -/
inductive Event where
  /-- A request is served. -/
  | serve (c : Call)
  /-- The validator applies the oldest submitted write. -/
  | commit

/-- The ledger after the events `es`, the most recent first, from the committed state `s`
with nothing submitted. -/
def runFrom (s : Store) : List Event → Ledger
  | [] => ⟨s, []⟩
  | .serve c :: es => (c.handle Ledger.client (runFrom s es)).1
  | .commit :: es => (runFrom s es).commit

/-- The requests the events serve, the most recent first. -/
def served : List Event → List Call
  | [] => []
  | .serve c :: es => c :: served es
  | .commit :: es => served es

/-- Each request was served only once every write submitted before it had been applied. -/
def Waits (s : Store) : List Event → Prop
  | [] => True
  | .serve _ :: es => (runFrom s es).submitted = [] ∧ Waits s es
  | .commit :: es => Waits s es

/-- The ledger with immediate commit after the calls `cs`, the most recent first, from `s`. -/
def runStore (s : Store) : List Call → Store
  | [] => s
  | c :: cs => (c.step (runStore s cs)).1

/-- **Waiting restores immediate commit**: when each request is served only once every
write before it has been applied, the ledger settles to the immediate-commit ledger of
the requests served, in the order served. -/
theorem runFrom_settled (s : Store) : ∀ es : List Event, Waits s es →
    (∀ c ∈ served es, c.SettlesAlike) → (runFrom s es).settled = runStore s (served es)
  | [], _, _ => rfl
  | .serve c :: es, ⟨hq, hw⟩, hc => by
    have ih := runFrom_settled s es hw fun c' h => hc c' (List.mem_cons_of_mem _ h)
    have hl : runFrom s es = ⟨runStore s (served es), []⟩ := by
      rw [← ih]; exact Ledger.eq_of_submitted_nil hq
    simp only [runFrom, served, runStore, hl]
    exact congrArg Prod.fst (Call.settles c (hc c (List.mem_cons_self _ _)) _)
  | .commit :: es, hw, hc => by
    simpa [runFrom, served] using runFrom_settled s es hw hc

/-- Without waiting, writes are lost.  Two registrations served before either's writes
are applied both read an absent pending list, and only the later key ends up on it.  A
registration served before an approval's writes are applied reads the list with the
approved key still on it, and puts it back. -/
theorem register_lost_update :
    let ra := Call.registerPubkey ⟨"POST", some (.obj [("public_key", .str "a")]), []⟩
    let rb := Call.registerPubkey ⟨"POST", some (.obj [("public_key", .str "b")]), []⟩
    let app := Call.approvePublicKey ⟨"GET", none, [("public_key", "a")]⟩
    (runFrom Store.empty [.serve rb, .serve ra]).settled keyNeedReview = some (.arr [.str "b"]) ∧
    (runFrom Store.empty [.serve rb, .serve app, .commit, .commit, .commit, .serve ra]).settled
      keyNeedReview = some (.arr [.str "a", .str "b"]) :=
  ⟨by decide, by decide⟩

/-! ### The scenarios under immediate commit -/

theorem pendingOf_eq_arr {s : Store} {L : List JSON} :
    pendingOf s = .arr L ↔ s keyNeedReview = some (.arr L) := by
  cases h : s keyNeedReview <;> simp [pendingOf, h]

/-- A list, or no list yet, takes a string in: the list `register_pubkey` writes back has
the key and everything that was on it. -/
theorem pendingAfter_str_of_list {l : JSON} (hl : l = .null ∨ ∃ L, l = .arr L) (k : String) :
    ∃ L', pendingAfter l (.str k) = .ok (.arr L') ∧ .str k ∈ L' ∧
      ∀ L, l = .arr L → ∀ x ∈ L, x ∈ L' := by
  rcases hl with rfl | ⟨L, rfl⟩
  · exact ⟨[.str k], pendingAfter_null _, by simp, fun _ h => by cases h⟩
  · exact ⟨appendNew L (.str k), pendingAfter_arr L _, str_mem_appendNew L k,
      fun _ h x hx => by cases h; exact mem_appendNew_of_mem hx⟩

/-- A registration of a string key other than `KEY_NEED_REVIEW`, on a ledger whose
pending list is a list or absent, puts the key on the list and keeps what was on it. -/
theorem registerPubkey_joins {req : Request} {record : JSON} {k : String}
    (hreq : RegisterRequest req record (.str k)) (hk : k ≠ keyNeedReview) {s : Store}
    (hl : pendingOf s = .null ∨ ∃ L, pendingOf s = .arr L) :
    ∃ L', pendingOf (registerPubkey Store.client req s).1 = .arr L' ∧ .str k ∈ L' ∧
      ∀ L, pendingOf s = .arr L → ∀ x ∈ L, x ∈ L' := by
  obtain ⟨L', hL', hk', hsub⟩ := pendingAfter_str_of_list hl k
  rw [registerPubkey_of_request hreq hL']
  exact ⟨L', by simp [pendingOf_put, Ne.symm hk], hk', hsub⟩

/-- The key `a` is not on `v`, when `v` is a list. -/
def OffList (a : String) (v : JSON) : Prop := ∀ L, v = .arr L → .str a ∉ L

theorem offList_pendingAfter {a b : String} {l X : JSON} (h : OffList a l) (hab : b ≠ a)
    (hX : pendingAfter l (.str b) = .ok X) : OffList a X := by
  by_cases hn : l = .null
  · subst hn
    rw [pendingAfter_null] at hX
    cases hX
    rintro _ ⟨⟩
    simpa using Ne.symm hab
  by_cases ha : ∃ L, l = .arr L
  · obtain ⟨L, rfl⟩ := ha
    rw [pendingAfter_arr] at hX
    cases hX
    rintro _ ⟨⟩ hm
    rcases mem_appendNew hm with hm | hm
    · exact h L rfl hm
    · exact hab (JSON.str.inj hm).symm
  · obtain ⟨rfl, -⟩ := pendingAfter_of_not_arr hn (fun L e => ha ⟨L, e⟩) hX
    exact h

/-- A completed approval, on a ledger whose pending list has no two `==` elements, takes
the key off the list. -/
theorem approvePublicKey_takes_off {req : Request} {a : String} (hreq : ApproveRequest req a)
    (ha : a ≠ keyNeedReview) {s : Store} (hs : PendingDistinct s)
    (hok : Succeeded (approvePublicKey Store.client req s).2) :
    OffList a (pendingOf (approvePublicKey Store.client req s).1) := by
  rcases approvePublicKey_cases req s with
    ⟨r, h, hr⟩ | ⟨_, _, e, -, -, -, h⟩ | ⟨k, body, l, L, hreq', -, hl, hL, h⟩
  · rw [h] at hok
    exact absurd hok hr
  · rw [h] at hok
    exact absurd hok (not_succeeded_error e)
  · obtain rfl := hreq.unique hreq'
    rw [h, pendingOf_put_self]
    have hl' : s keyNeedReview = some l := by simpa [Ne.symm ha] using hl
    by_cases harr : ∃ M, l = .arr M
    · obtain ⟨M, rfl⟩ := harr
      rw [removeIfPresent_str] at hL
      cases hL
      rintro _ ⟨⟩ hm
      exact (((hs M (pendingOf_eq_arr.2 hl')).mem_erase_str a _).1 hm).1 rfl
    · obtain ⟨rfl, -⟩ := removeIfPresent_of_not_arr (fun M e => harr ⟨M, e⟩) hL
      exact fun M e => absurd ⟨M, e⟩ harr

/-- A registration of another key leaves a key off the pending list. -/
theorem registerPubkey_keeps_off {req : Request} {record : JSON} {a b : String}
    (hreq : RegisterRequest req record (.str b)) (hb : b ≠ keyNeedReview) (hab : b ≠ a) {s : Store}
    (h : OffList a (pendingOf s)) : OffList a (pendingOf (registerPubkey Store.client req s).1) := by
  rcases registerPubkey_cases req s with
    ⟨r, hr, -⟩ | ⟨_, _, _, hreq', -, hns, -⟩ | ⟨_, k, L, hreq', hL, hr⟩
  · rw [hr]
    exact h
  · exact absurd (hreq.unique hreq').2.symm (hns b)
  · obtain ⟨rfl, hk⟩ := hreq.unique hreq'
    cases hk
    rw [hr, pendingOf_put, if_neg (Ne.symm hb), pendingOf_put_self]
    exact offList_pendingAfter h hab hL

/-- The will names the witness `w`: its `witnesses` are entries one of which names `w`. -/
def WillNames (body : JSON) (w : String) : Prop :=
  ∃ es, WitnessEntries body es ∧ es.any (entryNames w) = true

/-- A successful `create_will` whose will names `w` leaves on `w`'s index what its loop
wrote there, unless the will itself is written over the index. -/
theorem createWill_index {req : Request} {body : JSON} {t w : String}
    (hreq : CreateRequest req body (.str t)) (hn : WillNames body w) (ht : t ≠ "LIST_" ++ w)
    {s : Store} (hok : Succeeded (createWill Store.client req s).2) :
    (createWill Store.client req s).1 (willListPrefix ++ w)
      = some (indexAfter (s (willListPrefix ++ w)) (.str t)) := by
  obtain ⟨es, hes, hany⟩ := hn
  rcases createWill_cases req s with
    ⟨r, h, hr⟩ | ⟨_, _, _, e, -, -, -, h⟩ | ⟨_, _, _, hreq', hn', -, -⟩ |
      ⟨_, _, es', s', hreq', hes', hl, h⟩
  · rw [h] at hok
    exact absurd hok hr
  · rw [h] at hok
    exact absurd hok (not_succeeded_error e)
  · obtain ⟨rfl, -⟩ := hreq.unique hreq'
    simp [hes.1] at hn'
  · obtain ⟨rfl, hk⟩ := hreq.unique hreq'
    cases hk
    obtain rfl := hes.unique hes'
    have hidx := (addToWillLists_ok t es s s' hl).2 w
    rw [if_pos hany] at hidx
    have hne : willListPrefix ++ w ≠ willPrefix ++ t := by
      rw [willListPrefix_append, Ne, willPrefix_append_inj]
      exact fun e => ht e.symm
    rw [h]
    simpa [hne] using hidx

theorem indexAfter_str_of_list {prev : Option JSON} (h : prev = none ∨ ∃ L, prev = some (.arr L))
    (t : String) : ∃ L', indexAfter prev (.str t) = .arr L' ∧ .str t ∈ L' ∧
      ∀ L, prev = some (.arr L) → ∀ x ∈ L, x ∈ L' := by
  rcases h with rfl | ⟨L, rfl⟩
  · exact ⟨[.str t], rfl, by simp, fun _ h => by cases h⟩
  · exact ⟨appendNew L (.str t), rfl, str_mem_appendNew L t,
      fun _ h x hx => by cases h; exact mem_appendNew_of_mem hx⟩

theorem keySelfEqual_of_create {req : Request} {body : JSON} {t : String}
    (h : CreateRequest req body (.str t)) : KeySelfEqual req := fun b p hb hp => by
  rw [h.json] at hb
  cases hb
  rw [h.key] at hp
  cases hp
  simp

/-! ### The scenarios under waiting -/

section Waiting

variable (s : Store) (es : List Event)

/-- Under waiting, two registrations of string keys other than `KEY_NEED_REVIEW`, from a
ledger whose pending list is a list or absent, leave both keys on the list. -/
theorem waiting_registers_both (ra rb : Request) (recA recB : JSON) (a b : String)
    (hpend : pendingOf s = .null ∨ ∃ L, pendingOf s = .arr L)
    (hra : RegisterRequest ra recA (.str a)) (hrb : RegisterRequest rb recB (.str b))
    (ha : a ≠ keyNeedReview) (hb : b ≠ keyNeedReview)
    (hw : Waits s es) (hs : served es = [.registerPubkey rb, .registerPubkey ra]) :
    ∃ L, (runFrom s es).settled keyNeedReview = some (.arr L) ∧ .str a ∈ L ∧ .str b ∈ L := by
  rw [runFrom_settled s es hw (by simp [hs, Call.SettlesAlike]), hs]
  obtain ⟨L₁, h₁, ha₁, -⟩ := registerPubkey_joins hra ha hpend
  obtain ⟨L₂, h₂, hb₂, hsub⟩ := registerPubkey_joins hrb hb (.inr ⟨L₁, h₁⟩)
  exact ⟨L₂, pendingOf_eq_arr.1 h₂, hsub L₁ h₁ _ ha₁, hb₂⟩

/-- The later registration of `register_lost_update`, served once the earlier one's
three writes are applied, keeps both keys. -/
example :
    (runFrom Store.empty [.serve (.registerPubkey ⟨"POST", some (.obj [("public_key", .str "b")]), []⟩),
      .commit, .commit, .commit,
      .serve (.registerPubkey ⟨"POST", some (.obj [("public_key", .str "a")]), []⟩)]).settled
      keyNeedReview = some (.arr [.str "a", .str "b"]) := by
  decide

/-- Under waiting, two successful wills naming a common witness `w`, whose testators are
not `LIST_` followed by `w`, from a ledger whose index of `w` is a list or absent, leave
both testators on the index. -/
theorem waiting_creates_both (r₁ r₂ : Request) (body₁ body₂ : JSON) (t₁ t₂ w : String)
    (h₁ : CreateRequest r₁ body₁ (.str t₁)) (h₂ : CreateRequest r₂ body₂ (.str t₂))
    (hn₁ : WillNames body₁ w) (hn₂ : WillNames body₂ w)
    (ht₁ : t₁ ≠ "LIST_" ++ w) (ht₂ : t₂ ≠ "LIST_" ++ w)
    (hidx : s (willListPrefix ++ w) = none ∨ ∃ L, s (willListPrefix ++ w) = some (.arr L))
    (hok₁ : Succeeded (createWill Ledger.client r₁ ⟨s, []⟩).2)
    (hok₂ : Succeeded (createWill Ledger.client r₂ ⟨(createWill Ledger.client r₁ ⟨s, []⟩).1.settled, []⟩).2)
    (hw : Waits s es) (hs : served es = [.createWill r₂, .createWill r₁]) :
    ∃ L, (runFrom s es).settled (willListPrefix ++ w) = some (.arr L) ∧ .str t₁ ∈ L ∧ .str t₂ ∈ L := by
  have hc₁ := keySelfEqual_of_create h₁
  have hc₂ := keySelfEqual_of_create h₂
  rw [runFrom_settled s es hw (by simp [hs, Call.SettlesAlike, hc₁, hc₂]), hs]
  -- the answers and the ledger after the first will are those of immediate commit
  have e₁ := settles_createWill r₁ hc₁ s
  simp only [Settles, Ledger.settled_nil, Prod.ext_iff] at e₁
  rw [e₁.1] at hok₂
  have e₂ := settles_createWill r₂ hc₂ (createWill Store.client r₁ s).1
  simp only [Settles, Ledger.settled_nil, Prod.ext_iff] at e₂
  rw [e₁.2] at hok₁
  rw [e₂.2] at hok₂
  obtain ⟨L₁, hL₁, ht₁', -⟩ := indexAfter_str_of_list hidx t₁
  have hi₁ := createWill_index h₁ hn₁ ht₁ hok₁
  rw [hL₁] at hi₁
  obtain ⟨L₂, hL₂, ht₂', hsub⟩ := indexAfter_str_of_list (.inr ⟨L₁, hi₁⟩) t₂
  have hi₂ := createWill_index h₂ hn₂ ht₂ hok₂
  rw [hL₂] at hi₂
  exact ⟨L₂, by simpa [runStore, Call.step, Call.handle] using hi₂, hsub L₁ hi₁ _ ht₁', ht₂'⟩

/-- Under waiting, a completed approval, on a ledger whose pending list has no two `==`
elements, is not undone by the registration of another key. -/
theorem waiting_approval_kept (ra rb : Request) (recB : JSON) (a b : String)
    (hs₀ : PendingDistinct s) (hra : ApproveRequest ra a) (ha : a ≠ keyNeedReview)
    (hdone : Succeeded (approvePublicKey Ledger.client ra ⟨s, []⟩).2)
    (hrb : RegisterRequest rb recB (.str b)) (hba : b ≠ a) (hb : b ≠ keyNeedReview)
    (hw : Waits s es) (hs : served es = [.registerPubkey rb, .approvePublicKey ra]) :
    ∀ L, (runFrom s es).settled keyNeedReview = some (.arr L) → .str a ∉ L := by
  have hna : ¬ ApproveRequest ra keyNeedReview := fun h => ha (hra.unique h)
  rw [runFrom_settled s es hw (by simp [hs, Call.SettlesAlike, hna]), hs]
  have e := settles_approvePublicKey ra hna s
  simp only [Settles, Ledger.settled_nil, Prod.ext_iff] at e
  rw [e.2] at hdone
  intro L hL
  exact registerPubkey_keeps_off hrb hb hba (approvePublicKey_takes_off hra ha hs₀ hdone) L
    (pendingOf_eq_arr.2 (by simpa [runStore, Call.step, Call.handle] using hL))

end Waiting

/-- **No lost update under waiting**: on the ledger under delayed commit, when each request
is served only once every write submitted before it has been applied, the ledger settles
to the immediate-commit ledger of the requests served, for approvals of keys other than
`KEY_NEED_REVIEW` and wills whose testator is `==` to itself.  So two registrations keep
both keys on the pending list, two successful wills naming a common witness are both on
its index, and a completed approval is not undone by the registration of another key. -/
theorem waiting_no_lost_update :
    (∀ (s : Store) (es : List Event), Waits s es → (∀ c ∈ served es, c.SettlesAlike) →
      (runFrom s es).settled = runStore s (served es)) ∧
    (∀ (s : Store) (es : List Event) (ra rb : Request) (recA recB : JSON) (a b : String),
      (pendingOf s = .null ∨ ∃ L, pendingOf s = .arr L) →
      RegisterRequest ra recA (.str a) → RegisterRequest rb recB (.str b) →
      a ≠ keyNeedReview → b ≠ keyNeedReview →
      Waits s es → served es = [.registerPubkey rb, .registerPubkey ra] →
      ∃ L, (runFrom s es).settled keyNeedReview = some (.arr L) ∧ .str a ∈ L ∧ .str b ∈ L) ∧
    (∀ (s : Store) (es : List Event) (r₁ r₂ : Request) (body₁ body₂ : JSON) (t₁ t₂ w : String),
      CreateRequest r₁ body₁ (.str t₁) → CreateRequest r₂ body₂ (.str t₂) →
      WillNames body₁ w → WillNames body₂ w → t₁ ≠ "LIST_" ++ w → t₂ ≠ "LIST_" ++ w →
      (s (willListPrefix ++ w) = none ∨ ∃ L, s (willListPrefix ++ w) = some (.arr L)) →
      Succeeded (createWill Ledger.client r₁ ⟨s, []⟩).2 →
      Succeeded (createWill Ledger.client r₂ ⟨(createWill Ledger.client r₁ ⟨s, []⟩).1.settled, []⟩).2 →
      Waits s es → served es = [.createWill r₂, .createWill r₁] →
      ∃ L, (runFrom s es).settled (willListPrefix ++ w) = some (.arr L) ∧ .str t₁ ∈ L ∧ .str t₂ ∈ L) ∧
    (∀ (s : Store) (es : List Event) (ra rb : Request) (recB : JSON) (a b : String),
      PendingDistinct s → ApproveRequest ra a → a ≠ keyNeedReview →
      Succeeded (approvePublicKey Ledger.client ra ⟨s, []⟩).2 →
      RegisterRequest rb recB (.str b) → b ≠ a → b ≠ keyNeedReview →
      Waits s es → served es = [.registerPubkey rb, .approvePublicKey ra] →
      ∀ L, (runFrom s es).settled keyNeedReview = some (.arr L) → .str a ∉ L) :=
  ⟨runFrom_settled, waiting_registers_both, waiting_creates_both, waiting_approval_kept⟩

/-- The three schedules meet their conditions: two registrations from the empty ledger
with three commits between, two wills naming `w` with two commits between, and the
registration of `b` two commits after the approval of a registered `a`. -/
theorem waiting_no_lost_update_schedules :
    let reg := fun k : String => (⟨"POST", some (.obj [("public_key", .str k)]), []⟩ : Request)
    let record := fun k : String => JSON.obj [("public_key", .str k), ("status", .str "need_review")]
    let body := fun t : String =>
      JSON.obj [("public_key", .str t), ("witnesses", .arr [.obj [("public_key", .str "w")]])]
    let will := fun t : String => (⟨"POST", some (body t), []⟩ : Request)
    let appr : Request := ⟨"GET", none, [("public_key", "a")]⟩
    let s := run [.registerPubkey (reg "a")]
    let es₂ := [Event.serve (.registerPubkey (reg "b")), .commit, .commit, .commit,
      .serve (.registerPubkey (reg "a"))]
    let es₃ := [Event.serve (.createWill (will "b")), .commit, .commit, .serve (.createWill (will "a"))]
    let es₄ := [Event.serve (.registerPubkey (reg "b")), .commit, .commit, .serve (.approvePublicKey appr)]
    (Waits Store.empty es₂ ∧ (∀ c ∈ served es₂, c.SettlesAlike) ∧
      (runFrom Store.empty es₂).settled = runStore Store.empty (served es₂)) ∧
    (pendingOf Store.empty = .null ∧ RegisterRequest (reg "a") (record "a") (.str "a") ∧
      RegisterRequest (reg "b") (record "b") (.str "b") ∧
      served es₂ = [.registerPubkey (reg "b"), .registerPubkey (reg "a")] ∧
      ∃ L, (runFrom Store.empty es₂).settled keyNeedReview = some (.arr L) ∧ .str "a" ∈ L ∧ .str "b" ∈ L) ∧
    (CreateRequest (will "a") (body "a") (.str "a") ∧ CreateRequest (will "b") (body "b") (.str "b") ∧
      WillNames (body "a") "w" ∧ WillNames (body "b") "w" ∧ Store.empty (willListPrefix ++ "w") = none ∧
      Succeeded (createWill Ledger.client (will "a") ⟨Store.empty, []⟩).2 ∧
      Succeeded (createWill Ledger.client (will "b")
        ⟨(createWill Ledger.client (will "a") ⟨Store.empty, []⟩).1.settled, []⟩).2 ∧
      Waits Store.empty es₃ ∧ served es₃ = [.createWill (will "b"), .createWill (will "a")] ∧
      ∃ L, (runFrom Store.empty es₃).settled (willListPrefix ++ "w") = some (.arr L) ∧
        .str "a" ∈ L ∧ .str "b" ∈ L) ∧
    (PendingDistinct s ∧ ApproveRequest appr "a" ∧ Succeeded (approvePublicKey Ledger.client appr ⟨s, []⟩).2 ∧
      Waits s es₄ ∧ served es₄ = [.registerPubkey (reg "b"), .approvePublicKey appr] ∧
      ∀ L, (runFrom s es₄).settled keyNeedReview = some (.arr L) → .str "a" ∉ L) := by
  intro reg record body will appr s es₂ es₃ es₄
  have hreg : ∀ k, RegisterRequest (reg k) (record k) (.str k) := fun _ => ⟨rfl, ⟨_, rfl, rfl, rfl⟩, rfl⟩
  have hwill : ∀ t, CreateRequest (will t) (body t) (.str t) := fun _ => ⟨rfl, rfl, rfl, rfl⟩
  have hnames : ∀ t, WillNames (body t) "w" := fun _ => ⟨_, ⟨rfl, rfl⟩, rfl⟩
  have hw₂ : Waits Store.empty es₂ := ⟨by decide, rfl, trivial⟩
  have hc₂ : ∀ c ∈ served es₂, c.SettlesAlike := by simp [es₂, served, Call.SettlesAlike]
  have hw₃ : Waits Store.empty es₃ := ⟨by decide, rfl, trivial⟩
  have hs : PendingDistinct s := pendingDistinct_run _
  have happr : ApproveRequest appr "a" := ⟨rfl, rfl⟩
  have ha : Succeeded (approvePublicKey Ledger.client appr ⟨s, []⟩).2 := ⟨_, rfl, rfl, by decide⟩
  have hw₄ : Waits s es₄ := ⟨by decide, rfl, trivial⟩
  have h₁ : Succeeded (createWill Ledger.client (will "a") ⟨Store.empty, []⟩).2 := ⟨_, rfl, rfl, by decide⟩
  have h₂ : Succeeded (createWill Ledger.client (will "b")
      ⟨(createWill Ledger.client (will "a") ⟨Store.empty, []⟩).1.settled, []⟩).2 := ⟨_, rfl, rfl, by decide⟩
  exact ⟨⟨hw₂, hc₂, waiting_no_lost_update.1 _ _ hw₂ hc₂⟩,
    ⟨rfl, hreg "a", hreg "b", rfl, waiting_no_lost_update.2.1 _ _ _ _ _ _ _ _ (.inl rfl) (hreg "a") (hreg "b")
      (by decide) (by decide) hw₂ rfl⟩,
    ⟨hwill "a", hwill "b", hnames "a", hnames "b", rfl, h₁, h₂, hw₃, rfl,
      waiting_no_lost_update.2.2.1 _ _ _ _ _ _ _ _ _ (hwill "a") (hwill "b") (hnames "a") (hnames "b")
        (by decide) (by decide) (.inl rfl) h₁ h₂ hw₃ rfl⟩,
    ⟨hs, happr, ha, hw₄, rfl, waiting_no_lost_update.2.2.2 _ _ _ _ _ _ _ hs happr (by decide) ha
      (hreg "b") (by decide) (by decide) hw₄ rfl⟩⟩

end IntkeyWill
