import IntkeyWill.Delayed
import IntkeyWill.Validity

/-!
# The read routes

`show_user`, `list_need_approve`, `show_will` and `show_will_list` call the client
only through `get_value`, so they leave the ledger as they find it, under immediate
commit as under delayed commit.  A run that interleaves them with the writing requests
leaves the ledger that the writing requests leave on their own, which is why `run`
counts only those.  Under delayed commit a read sees only what is committed; once every
write a waiting schedule submitted is applied, each read route answers as it does under
immediate commit.

`show_will_list` is what the witness index is for.  It answers with the wills of the
testators on a witness's index, each with the testator's record attached.  It skips
every entry for which a step raises, and it never checks that the will it shows still
names the witness.  In a run in which no testator's will key is an index key and no
registration names a will key, it shows a witness every stored will that names it, once
the testator has a record.

## Main definitions

* `ReadOnly`, `Client.ReadsOnly` — a step, or every read of a client, that leaves the
  state as it is.
* `Route`, `Route.handle`, `runRoutes` — the routes of the REST API, and runs over all
  of them.
* `Shown` — what `show_will_list` shows for one entry of an index.
* `WillsKeyed`, `ShowInv` — what runs keep of the will keys for `show_will_list`.

## Main results

* `showUser_front`, `listNeedApprove_front`, `showWill_front`, `showWillList_front` —
  each read handler answers at once, or reads the ledger, over every client.
* `reads_write_nothing` — the read routes leave both ledgers as they are.
* `runRoutes_eq_run` — a run over all routes leaves the ledger of its writing requests.
* `Route.settles_read`, `waiting_reads_agree` — with nothing pending, a read under
  delayed commit answers as on the settled ledger under immediate commit.
* `showWillList_run` — `show_will_list` on a ledger whose index is a list.
* `witness_sees_wills` — `show_will_list` shows a witness every stored will that names
  it, whose testator has a record.

## References

`src/sdk/examples/intkey_python/sawtooth_intkey/client_cli/intkey_cli.py`, lines
390–395 (`--wait`), 493–500 and 578–805.
-/

namespace IntkeyWill

open JSON

/-! ### Steps that write nothing -/

/-- The step leaves the state it starts in as it is. -/
def ReadOnly {σ α : Type} (m : Py σ α) : Prop := ∀ x, (m x).1 = x

/-- Every read of the client leaves its state as it is. -/
def Client.ReadsOnly {σ : Type} (c : Client σ) : Prop := ∀ key, ReadOnly (c.getValue key)

section ReadOnly

variable {σ α β : Type}

theorem readOnly_pure (a : α) : ReadOnly (pure a : Py σ α) := fun _ => rfl

theorem readOnly_lift (e : Except PyErr α) : ReadOnly (monadLift e : Py σ α) := fun _ => rfl

theorem ReadOnly.bind {m : Py σ α} {f : α → Py σ β} (hm : ReadOnly m) (hf : ∀ a, ReadOnly (f a)) :
    ReadOnly (m >>= f) := fun x => by
  have h := hm x
  rw [Py.run_bind]
  cases hmx : m x with
  | mk y r =>
    obtain rfl : y = x := by rw [hmx] at h; exact h
    cases r with
    | error e => rfl
    | ok a => exact hf a y

theorem ReadOnly.catchClient {m h : Py σ α} (hm : ReadOnly m) (hh : ReadOnly h) :
    ReadOnly (Py.catchClient m h) := fun x => by
  have e := hm x
  unfold Py.catchClient
  cases hmx : m x with
  | mk y r =>
    obtain rfl : y = x := by rw [hmx] at e; exact e
    cases r with
    | error err => cases err <;> first | exact hh y | rfl
    | ok a => rfl

theorem ReadOnly.catchAll {m : Py σ α} (hm : ReadOnly m) (d : α) : ReadOnly (Py.catchAll m d) :=
  fun x => by
  have e := hm x
  unfold Py.catchAll
  cases hmx : m x with
  | mk y r =>
    obtain rfl : y = x := by rw [hmx] at e; exact e
    cases r <;> rfl

end ReadOnly

theorem Store.client_readsOnly : Store.client.ReadsOnly := fun key _ => by cases key <;> rfl

theorem Ledger.client_readsOnly : Ledger.client.ReadsOnly := fun key _ => by cases key <;> rfl

/-! ### The read handlers -/

/-- What `show_user` does, over every client: answer at once, or read the key's record. -/
theorem showUser_front (req : Request) :
    (∃ r, ∀ {σ : Type} (c : Client σ), showUser c req = pure r) ∨
    ∃ k, ∀ {σ : Type} (c : Client σ),
      showUser c req = c.getValue (.str k) >>= fun body => pure (wrapResponse body 200) := by
  by_cases hm : req.method = "GET"
  · cases hq : req.queryGet "public_key" with
    | none => exact .inl ⟨wrapResponse (failure "Missing public_key") 400,
        fun c => by funext y; simp [showUser, hm, hq]⟩
    | some k => exact .inr ⟨k, fun c => by funext y; simp [showUser, hm, hq]⟩
  · exact .inl ⟨wrapResponse .null 200, fun c => by funext y; simp [showUser, hm]⟩

/-- What `list_need_approve` does, over every client: answer at once, or read the
pending-review list and the record of each key on it. -/
theorem listNeedApprove_front (req : Request) :
    (∃ r, ∀ {σ : Type} (c : Client σ), listNeedApprove c req = pure r) ∨
    ∀ {σ : Type} (c : Client σ), listNeedApprove c req = c.getValue (.str keyNeedReview) >>= fun l =>
      monadLift (pyIter l) >>= fun ps => getValues c ps >>= fun users =>
        pure (wrapResponse (.arr users) 200) := by
  by_cases hm : req.method = "GET"
  · exact .inr fun c => by funext y; simp [listNeedApprove, hm]
  · exact .inl ⟨wrapResponse .null 200, fun c => by funext y; simp [listNeedApprove, hm]⟩

/-- What `show_will` does, over every client: answer at once, or read the will. -/
theorem showWill_front (req : Request) :
    (∃ r, ∀ {σ : Type} (c : Client σ), showWill c req = pure r) ∨
    ∃ k, ∀ {σ : Type} (c : Client σ),
      showWill c req = c.getValue (.str (willPrefix ++ k)) >>= fun body => pure (wrapResponse body 200) := by
  by_cases hm : req.method = "GET"
  · cases hq : req.queryGet "public_key" with
    | none => exact .inl ⟨wrapResponse (failure "Missing public_key") 400,
        fun c => by funext y; simp [showWill, hm, hq]⟩
    | some k => exact .inr ⟨k, fun c => by funext y; simp [showWill, hm, hq]⟩
  · exact .inl ⟨wrapResponse .null 200, fun c => by funext y; simp [showWill, hm]⟩

/-- What `show_will_list` does, over every client: answer at once, or read the witness's
index and every will on it. -/
theorem showWillList_front (req : Request) :
    (∃ r, ∀ {σ : Type} (c : Client σ), showWillList c req = pure r) ∨
    ∃ w, ∀ {σ : Type} (c : Client σ), showWillList c req
      = Py.catchClient (c.getValue (.str (willListPrefix ++ w))) (pure (.arr [])) >>= fun l =>
        monadLift (pyIter l) >>= fun ps => willsWithTestator c ps >>= fun wills =>
          pure (wrapResponse (.arr wills) 200) := by
  by_cases hm : req.method = "GET"
  · cases hq : req.queryGet "public_key" with
    | none => exact .inl ⟨wrapResponse (failure "Missing public_key") 400,
        fun c => by funext y; simp [showWillList, hm, hq]⟩
    | some w => exact .inr ⟨w, fun c => by funext y; simp [showWillList, hm, hq]⟩
  · exact .inl ⟨wrapResponse .null 200, fun c => by funext y; simp [showWillList, hm]⟩

section Handlers

variable {σ : Type} {c : Client σ} (hc : c.ReadsOnly)
include hc

theorem getValues_readOnly : ∀ L : List JSON, ReadOnly (getValues c L)
  | [] => readOnly_pure _
  | _ :: L => (hc _).bind fun _ => (getValues_readOnly L).bind fun _ => readOnly_pure _

theorem willWithTestator_readOnly (p : JSON) : ReadOnly (willWithTestator c p) :=
  ReadOnly.catchAll ((readOnly_lift _).bind fun _ => (hc _).bind fun _ =>
    (readOnly_lift _).bind fun _ => (hc _).bind fun _ =>
      (readOnly_lift _).bind fun _ => readOnly_pure _) none

theorem willsWithTestator_readOnly : ∀ L : List JSON, ReadOnly (willsWithTestator c L)
  | [] => readOnly_pure _
  | p :: L => (willWithTestator_readOnly hc p).bind fun _ =>
    (willsWithTestator_readOnly L).bind fun _ => readOnly_pure _

theorem showUser_readOnly (req : Request) : ReadOnly (showUser c req) := by
  rcases showUser_front req with ⟨r, h⟩ | ⟨k, h⟩ <;> rw [h]
  · exact readOnly_pure r
  · exact (hc _).bind fun _ => readOnly_pure _

theorem listNeedApprove_readOnly (req : Request) : ReadOnly (listNeedApprove c req) := by
  rcases listNeedApprove_front req with ⟨r, h⟩ | h <;> rw [h]
  · exact readOnly_pure r
  · exact (hc _).bind fun _ => (readOnly_lift _).bind fun ps =>
      (getValues_readOnly hc ps).bind fun _ => readOnly_pure _

theorem showWill_readOnly (req : Request) : ReadOnly (showWill c req) := by
  rcases showWill_front req with ⟨r, h⟩ | ⟨k, h⟩ <;> rw [h]
  · exact readOnly_pure r
  · exact (hc _).bind fun _ => readOnly_pure _

theorem showWillList_readOnly (req : Request) : ReadOnly (showWillList c req) := by
  rcases showWillList_front req with ⟨r, h⟩ | ⟨w, h⟩ <;> rw [h]
  · exact readOnly_pure r
  · exact ((hc _).catchClient (readOnly_pure _)).bind fun _ => (readOnly_lift _).bind fun ps =>
      (willsWithTestator_readOnly hc ps).bind fun _ => readOnly_pure _

end Handlers

/-! ### Runs over every route -/

/-- A request to a route of `start_rest_api`: one of the four that write, or one of
the four that read. -/
inductive Route where
  /-- A request to `/register`, `/admin/approve`, `/will/create` or `/will/witness_sign`. -/
  | call (c : Call)
  /-- A request routed to `/user`. -/
  | showUser (req : Request)
  /-- A request routed to `/admin/list`. -/
  | listNeedApprove (req : Request)
  /-- A request routed to `/will`. -/
  | showWill (req : Request)
  /-- A request routed to `/will/list`. -/
  | showWillList (req : Request)

namespace Route

/-- The handler a request is routed to, over a client. -/
def handle {σ : Type} (c : Client σ) : Route → Py σ Response
  | call c' => c'.handle c
  | showUser req => IntkeyWill.showUser c req
  | listNeedApprove req => IntkeyWill.listNeedApprove c req
  | showWill req => IntkeyWill.showWill c req
  | showWillList req => IntkeyWill.showWillList c req

/-- The request goes to a route that reads. -/
def IsRead : Route → Prop
  | call _ => False
  | _ => True

/-- The requests among `rs` to the routes that write, in the same order. -/
def calls : List Route → List Call
  | [] => []
  | call c :: rs => c :: calls rs
  | _ :: rs => calls rs

theorem readOnly_handle {r : Route} (hr : r.IsRead) {σ : Type} {c : Client σ} (hc : c.ReadsOnly) :
    ReadOnly (r.handle c) :=
  match r, hr with
  | showUser req, _ => showUser_readOnly hc req
  | listNeedApprove req, _ => listNeedApprove_readOnly hc req
  | showWill req, _ => showWill_readOnly hc req
  | showWillList req, _ => showWillList_readOnly hc req

end Route

/-- **Reads write nothing**: a request to a route that reads leaves the ledger as it
finds it, under immediate and under delayed commit. -/
theorem reads_write_nothing {r : Route} (hr : r.IsRead) :
    (∀ s, (r.handle Store.client s).1 = s) ∧ ∀ l, (r.handle Ledger.client l).1 = l :=
  ⟨Route.readOnly_handle hr Store.client_readsOnly, Route.readOnly_handle hr Ledger.client_readsOnly⟩

theorem reads_write_nothing_user :
    (Route.showUser ⟨"GET", none, [("public_key", "alice")]⟩).IsRead ∧
    (∀ s, ((Route.showUser ⟨"GET", none, [("public_key", "alice")]⟩).handle Store.client s).1 = s) ∧
    ∀ l, ((Route.showUser ⟨"GET", none, [("public_key", "alice")]⟩).handle Ledger.client l).1 = l :=
  ⟨trivial, reads_write_nothing trivial⟩

/-- The ledger with immediate commit after the requests `rs`, the most recent first,
served from the empty ledger. -/
def runRoutes : List Route → Store
  | [] => Store.empty
  | r :: rs => (r.handle Store.client (runRoutes rs)).1

/-- **Runs over every route**: requests to all the routes leave the ledger that the
requests among them to the routes that write leave, served in the same order. -/
theorem runRoutes_eq_run : ∀ rs : List Route, runRoutes rs = run (Route.calls rs)
  | [] => rfl
  | r :: rs => by
    cases r with
    | call c => simp only [runRoutes, Route.calls, Route.handle, run_cons, Call.step, runRoutes_eq_run rs]
    | _ =>
      simp only [runRoutes, Route.calls, ← runRoutes_eq_run rs]
      exact Route.readOnly_handle (by trivial) Store.client_readsOnly _

/-! ### Reads under delayed commit -/

section Settles

variable {α β : Type}

/-- With nothing pending, a read of the ledger under delayed commit reads what the
settled ledger holds. -/
theorem settles_getValue (key : JSON) (s : Store) :
    Settles (Ledger.client.getValue key) (Store.client.getValue key) ⟨s, []⟩ := by
  cases key <;> rfl

/-- A read that settles alike, followed by steps that settle alike on the same ledger. -/
theorem Settles.bind_read {m : Py Ledger α} {m' : Py Store α} {f : α → Py Ledger β}
    {f' : α → Py Store β} {l : Ledger} (h : Settles m m' l) (hro : ReadOnly m)
    (hf : ∀ a, Settles (f a) (f' a) l) : Settles (m >>= f) (m' >>= f') l :=
  h.bind fun a => (hro l).symm ▸ hf a

theorem Settles.catchClient {m h : Py Ledger α} {m' h' : Py Store α} {l : Ledger}
    (hm : Settles m m' l) (hh : Settles h h' (m l).1) :
    Settles (Py.catchClient m h) (Py.catchClient m' h') l := by
  unfold Settles at hm hh ⊢
  unfold Py.catchClient
  rw [← hm]
  cases hml : m l with
  | mk l' r =>
    rw [hml] at hh
    cases r with
    | error e => cases e <;> first | exact hh | rfl
    | ok a => rfl

theorem Settles.catchAll {m : Py Ledger α} {m' : Py Store α} {l : Ledger} (hm : Settles m m' l)
    (d : α) : Settles (Py.catchAll m d) (Py.catchAll m' d) l := by
  unfold Settles at hm ⊢
  unfold Py.catchAll
  rw [← hm]
  cases m l with
  | mk l' r => cases r <;> rfl

end Settles

section Reads

variable (s : Store)

theorem getValues_settles : ∀ L : List JSON,
    Settles (getValues Ledger.client L) (getValues Store.client L) ⟨s, []⟩
  | [] => settles_pure _ _
  | p :: L => (settles_getValue p s).bind_read (Ledger.client_readsOnly p) fun _ =>
    (getValues_settles L).bind_read (getValues_readOnly Ledger.client_readsOnly L) fun _ =>
      settles_pure _ _

theorem willWithTestator_settles (p : JSON) :
    Settles (willWithTestator Ledger.client p) (willWithTestator Store.client p) ⟨s, []⟩ :=
  Settles.catchAll ((settles_lift _ _).bind_read (readOnly_lift _) fun _ =>
    (settles_getValue _ s).bind_read (Ledger.client_readsOnly _) fun _ =>
      (settles_lift _ _).bind_read (readOnly_lift _) fun _ =>
        (settles_getValue _ s).bind_read (Ledger.client_readsOnly _) fun _ =>
          (settles_lift _ _).bind_read (readOnly_lift _) fun _ => settles_pure _ _) none

theorem willsWithTestator_settles : ∀ L : List JSON,
    Settles (willsWithTestator Ledger.client L) (willsWithTestator Store.client L) ⟨s, []⟩
  | [] => settles_pure _ _
  | p :: L => (willWithTestator_settles s p).bind_read (willWithTestator_readOnly Ledger.client_readsOnly p)
    fun _ => (willsWithTestator_settles L).bind_read
      (willsWithTestator_readOnly Ledger.client_readsOnly L) fun _ => settles_pure _ _

/-- With nothing pending, a request to a route that reads gets, under delayed commit,
the answer it gets on the settled ledger under immediate commit. -/
theorem Route.settles_read {r : Route} (hr : r.IsRead) :
    Settles (r.handle Ledger.client) (r.handle Store.client) ⟨s, []⟩ := by
  cases r with
  | call c => exact hr.elim
  | showUser req =>
    rcases showUser_front req with ⟨a, h⟩ | ⟨k, h⟩ <;> simp only [Route.handle, h]
    · exact settles_pure a _
    · exact (settles_getValue _ s).bind fun _ => settles_pure _ _
  | listNeedApprove req =>
    rcases listNeedApprove_front req with ⟨a, h⟩ | h <;> simp only [Route.handle, h]
    · exact settles_pure a _
    · exact (settles_getValue _ s).bind fun _ => (settles_lift _ _).bind fun ps =>
        (getValues_settles s ps).bind_read (getValues_readOnly Ledger.client_readsOnly ps) fun _ =>
          settles_pure _ _
  | showWill req =>
    rcases showWill_front req with ⟨a, h⟩ | ⟨k, h⟩ <;> simp only [Route.handle, h]
    · exact settles_pure a _
    · exact (settles_getValue _ s).bind fun _ => settles_pure _ _
  | showWillList req =>
    rcases showWillList_front req with ⟨a, h⟩ | ⟨w, h⟩ <;> simp only [Route.handle, h]
    · exact settles_pure a _
    · exact ((settles_getValue _ s).catchClient (settles_pure _ _)).bind_read
        ((Ledger.client_readsOnly _).catchClient (readOnly_pure _)) fun _ =>
        (settles_lift _ _).bind fun ps =>
          (willsWithTestator_settles s ps).bind_read
            (willsWithTestator_readOnly Ledger.client_readsOnly ps) fun _ => settles_pure _ _

end Reads

/-- **Under waiting, reads answer as under immediate commit**: once every write of a
waiting schedule is applied, a request to a route that reads writes nothing, and gets
the answer it gets on the ledger with immediate commit after the requests served. -/
theorem waiting_reads_agree (s : Store) (es : List Event) (hw : Waits s es)
    (hc : ∀ c ∈ served es, c.SettlesAlike) (hq : (runFrom s es).submitted = []) {r : Route}
    (hr : r.IsRead) :
    (r.handle Ledger.client (runFrom s es)).1 = runFrom s es ∧
      (r.handle Ledger.client (runFrom s es)).2 = (r.handle Store.client (runStore s (served es))).2 := by
  have hl : runFrom s es = ⟨runStore s (served es), []⟩ := by
    rw [← runFrom_settled s es hw hc]
    exact Ledger.eq_of_submitted_nil hq
  refine ⟨Route.readOnly_handle hr Ledger.client_readsOnly _, ?_⟩
  rw [hl]
  exact congrArg Prod.snd (Route.settles_read _ hr)

theorem waiting_reads_agree_alice :
    let reg := Call.registerPubkey ⟨"POST", some (.obj [("public_key", .str "alice")]), []⟩
    let es := [Event.commit, .commit, .commit, .serve reg]
    let r := Route.showUser ⟨"GET", none, [("public_key", "alice")]⟩
    Waits Store.empty es ∧ (∀ c ∈ served es, c.SettlesAlike) ∧ (runFrom Store.empty es).submitted = [] ∧
    r.IsRead ∧ (r.handle Ledger.client (runFrom Store.empty es)).1 = runFrom Store.empty es ∧
      (r.handle Ledger.client (runFrom Store.empty es)).2
        = (r.handle Store.client (runStore Store.empty (served es))).2 := by
  intro reg es r
  have hw : Waits Store.empty es := ⟨rfl, trivial⟩
  have hc : ∀ c ∈ served es, c.SettlesAlike := by simp [es, served, reg, Call.SettlesAlike]
  have hq : (runFrom Store.empty es).submitted = [] := by decide
  exact ⟨hw, hc, hq, trivial, waiting_reads_agree Store.empty es hw hc hq trivial⟩

/-- Without waiting, a read misses a write submitted and not yet applied: right after a
registration is served, `show_user` does not find the key. -/
example :
    (showUser Ledger.client ⟨"GET", none, [("public_key", "alice")]⟩
      (runFrom Store.empty [.serve (.registerPubkey
        ⟨"POST", some (.obj [("public_key", .str "alice")]), []⟩)])).2 = .error .keyNotFound :=
  rfl

/-! ### `show_will_list` on the ledger with immediate commit -/

/-- What `show_will_list` shows for the entry `p` of an index on the ledger `s`: the will
stored under `WILL_p`, with the record stored under its `public_key` as its `testator`. -/
def Shown (s : Store) (p W' : JSON) : Prop :=
  ∃ t W k rec, p = .str t ∧ s (willPrefix ++ t) = some W ∧ getItem W "public_key" = .ok (.str k) ∧
    s k = some rec ∧ setItem W "testator" rec = .ok W'

/-- A pass shows what `Shown` gives for its entry. -/
theorem willWithTestator_of_shown {s : Store} {p W' : JSON} (h : Shown s p W') :
    willWithTestator Store.client p s = (s, .ok (some W')) := by
  obtain ⟨t, W, k, rec, rfl, hW, hk, hr, hset⟩ := h
  simp only [willWithTestator, Py.catchAll, strAdd, Py.run_bind, Py.run_lift, Py.andThen_ok,
    Store.client_getValue_str, Store.lookup, hW, hk, hr, hset, Py.run_pure]

/-- One pass of the loop of `show_will_list`: it shows what `Shown` says, or nothing. -/
theorem willWithTestator_run (p : JSON) (s : Store) :
    ∃ o, willWithTestator Store.client p s = (s, .ok o) ∧ ∀ W', o = some W' ↔ Shown s p W' := by
  by_cases hs : ∃ W', Shown s p W'
  · obtain ⟨W', hW'⟩ := hs
    have h := willWithTestator_of_shown hW'
    refine ⟨some W', h, fun W'' => ⟨by rintro ⟨⟩; exact hW', fun h' => ?_⟩⟩
    rw [willWithTestator_of_shown h'] at h
    simpa using h.symm
  -- a pass that shows nothing raises at one of its steps
  push_neg at hs
  refine ⟨none, ?_, fun W' => iff_of_false (by simp) (hs W')⟩
  cases p with
  | str t =>
    cases hW : s (willPrefix ++ t) with
    | none =>
      simp only [willWithTestator, Py.catchAll, strAdd, Py.run_bind, Py.run_lift, Py.andThen_ok,
        Py.andThen_error, Store.client_getValue_str, Store.lookup, hW]
    | some W =>
    cases hk : getItem W "public_key" with
    | error e =>
      simp only [willWithTestator, Py.catchAll, strAdd, Py.run_bind, Py.run_lift, Py.andThen_ok,
        Py.andThen_error, Store.client_getValue_str, Store.lookup, hW, hk]
    | ok key =>
    cases key with
    | str k =>
      cases hr : s k with
      | none =>
        simp only [willWithTestator, Py.catchAll, strAdd, Py.run_bind, Py.run_lift, Py.andThen_ok,
          Py.andThen_error, Store.client_getValue_str, Store.lookup, hW, hk, hr]
      | some rec =>
      cases hset : setItem W "testator" rec with
      | error e =>
        simp only [willWithTestator, Py.catchAll, strAdd, Py.run_bind, Py.run_lift, Py.andThen_ok,
          Py.andThen_error, Store.client_getValue_str, Store.lookup, hW, hk, hr, hset]
      | ok W' => exact absurd ⟨t, W, k, rec, rfl, hW, hk, hr, hset⟩ (hs W')
    | _ =>
      -- a key that is not a string has no record
      simp only [willWithTestator, Py.catchAll, strAdd, Store.client, Store.getValue, Store.lookup,
        Py.run_bind, Py.run_lift, Py.andThen_ok, hW, hk, Py.andThen_error]
  | _ => simp only [willWithTestator, Py.catchAll, strAdd, Py.run_bind, Py.run_lift, Py.andThen_error]

/-- The loop of `show_will_list`: it shows what `Shown` says for some entry, and writes
nothing. -/
theorem willsWithTestator_run (s : Store) : ∀ L : List JSON, ∃ wills,
    willsWithTestator Store.client L s = (s, .ok wills) ∧ ∀ W', W' ∈ wills ↔ ∃ p ∈ L, Shown s p W'
  | [] => ⟨[], rfl, by simp⟩
  | p :: L => by
    obtain ⟨o, ho, hshown⟩ := willWithTestator_run p s
    obtain ⟨wills, hw, hmem⟩ := willsWithTestator_run s L
    refine ⟨o.toList ++ wills, by simp [willsWithTestator, ho, hw], fun W' => ?_⟩
    simp only [List.mem_append, Option.mem_toList, Option.mem_def, hshown, hmem, List.mem_cons,
      or_and_right, exists_or, exists_eq_left]

/-- **`show_will_list` on the ledger**, for a witness whose index is a list or absent:
it answers with what `Shown` says for the entries of the index, and writes nothing. -/
theorem showWillList_run {req : Request} (hm : req.method = "GET") {w : String}
    (hq : req.queryGet "public_key" = some w) {s : Store}
    (hidx : s (willListPrefix ++ w) = none ∨ s (willListPrefix ++ w) = some (.arr (indexOf s w))) :
    ∃ wills, showWillList Store.client req s = (s, .ok (wrapResponse (.arr wills) 200)) ∧
      ∀ W', W' ∈ wills ↔ ∃ p ∈ indexOf s w, Shown s p W' := by
  have hread : Py.catchClient (Store.client.getValue (.str (willListPrefix ++ w))) (pure (.arr [])) s
      = (s, .ok (.arr (indexOf s w))) := by
    rcases hidx with h | h
    · simp [Py.catchClient, Store.lookup, h, indexOf]
    · simp [Py.catchClient, Store.lookup, h]
  obtain ⟨wills, hw, hmem⟩ := willsWithTestator_run s (indexOf s w)
  exact ⟨wills, by simp [showWillList, hm, hq, hread, pyIter, hw], hmem⟩

/-! ### The will keys over a run of every writing request -/

/-- Every value under a will key is an index, a list, or a will that names its testator
as its `public_key`. -/
def WillsKeyed (s : Store) : Prop :=
  ∀ t W, s (willPrefix ++ t) = some W → (∃ L, W = .arr L) ∨ W.field "public_key" = some (.str t)

/-- What a run keeps for `show_will_list`: the indexes, and the testator of every will. -/
structure ShowInv (s : Store) extends IndexInv s : Prop where
  keyed : WillsKeyed s

section Show

variable {s : Store}

theorem WillsKeyed.put_will (h : WillsKeyed s) {t : String} {v : JSON}
    (hk : v.field "public_key" = some (.str t)) : WillsKeyed (s.put (willPrefix ++ t) v) := by
  intro t' W hW
  by_cases e : t' = t
  · subst e
    simp only [Store.put_apply, if_true, Option.some.injEq] at hW
    exact .inr (hW ▸ hk)
  · rw [Store.put_apply, if_neg (by simpa [willPrefix_append_inj] using e)] at hW
    exact h t' W hW

/-- The witness loop writes lists only. -/
theorem WillsKeyed.addToWillLists (h : WillsKeyed s) (p : JSON) (es : List JSON) :
    WillsKeyed (addToWillLists Store.client p es s).1 := fun t W hW => by
  rcases addToWillLists_values p es s (willPrefix ++ t) with hv | ⟨L, hv⟩ <;> rw [hv] at hW
  · exact h t W hW
  · exact .inl ⟨L, (Option.some.inj hW).symm⟩

/-- A ledger that agrees with one on every will key keeps what that one keeps. -/
theorem ShowInv.of_willKeys (h : ShowInv s) {s' : Store} (h' : ∀ k, IsWillKey k → s' k = s k) :
    ShowInv s' := by
  have hwill (t : String) : s' (willPrefix ++ t) = s (willPrefix ++ t) := h' _ (isWillKey_willPrefix t)
  have hlist (w : String) : s' (willListPrefix ++ w) = s (willListPrefix ++ w) :=
    h' _ (isWillKey_willListPrefix w)
  have hidx (w : String) : indexOf s' w = indexOf s w := by simp only [indexOf, hlist]
  refine ⟨⟨⟨fun w => ?_, fun w => ?_⟩, fun t W es hW => ?_⟩, fun t W hW => h.keyed t W (by rwa [hwill] at hW)⟩
  · rw [hlist, hidx]; exact h.shape w
  · rw [hidx]; exact h.distinct w
  · simp only [hidx]; exact h.listed t W es (by rwa [hwill] at hW)

theorem showInv_empty : ShowInv Store.empty := ⟨indexInv_empty, fun _ _ h => by simp at h⟩

/-- A registration that names no will key keeps what runs keep. -/
theorem ShowInv.registerPubkey_step (h : ShowInv s) {req : Request}
    (hn : (Call.registerPubkey req).NamesNoWillKey) : ShowInv (registerPubkey Store.client req s).1 :=
  h.of_willKeys fun k hk => registerPubkey_frame req s (fun e => not_isWillKey_keyNeedReview (e ▸ hk))
    fun record hr => hn record k hr hk

/-- An approval keeps what runs keep: on a will key it rewrites a will with the same
witnesses and testator, and it cannot rewrite an index. -/
theorem ShowInv.approvePublicKey_step (h : ShowInv s) (req : Request) :
    ShowInv (approvePublicKey Store.client req s).1 := by
  have happrove {k : String} {b body : JSON} (hb : s k = some b)
      (hset : setItem b "status" (.str "approved") = .ok body) : ShowInv (s.put k body) := by
    obtain ⟨kvs, rfl, rfl⟩ := setItem_eq_ok.1 hset
    by_cases hk : IsWillKey k
    · obtain ⟨t, rfl⟩ := hk
      have ht : ∀ w, t ≠ "LIST_" ++ w := by
        rintro w rfl
        rw [← willListPrefix_append] at hb
        rcases h.shape w with h0 | h0 <;> rw [h0] at hb <;> cases hb
      have hfield {k' : String} (hk' : k' ≠ "status") :
          (JSON.obj (setField "status" (.str "approved") kvs)).field k' = (JSON.obj kvs).field k' :=
        lookup_setField_of_ne hk' _ kvs
      refine ⟨h.toIndexInv.put_will ht fun es hw => ?_, h.keyed.put_will ?_⟩
      · rw [hfield (by decide)] at hw
        exact h.listed t _ es hb hw
      · rw [hfield (by decide)]
        simpa using h.keyed t _ hb
    · exact h.of_willKeys fun k' hk' => by simp [show k' ≠ k from fun e => hk (e ▸ hk')]
  rcases approvePublicKey_cases req s with
    ⟨r, hr, -⟩ | ⟨k, body, e, -, ⟨b, hb, hset⟩, -, hr⟩ | ⟨k, body, l, L, -, ⟨b, hb, hset⟩, -, -, hr⟩ <;>
    rw [hr]
  · exact h
  · exact happrove hb hset
  · exact (happrove hb hset).of_willKeys fun k' hk' => by
      simp [show k' ≠ keyNeedReview from fun e => not_isWillKey_keyNeedReview (e ▸ hk')]

/-- `create_will` keeps what runs keep, when its testator's will key is no index key:
it writes lists, and a will that names its testator. -/
theorem ShowInv.createWill_step (h : ShowInv s) {req : Request}
    (hkey : (Call.createWill req).CreatesNoIndexKey) : ShowInv (createWill Store.client req s).1 := by
  refine ⟨h.toIndexInv.createWill_step hkey, ?_⟩
  rcases createWill_cases req s with
    ⟨r, hr, -⟩ | ⟨_, p, es, e, _, _, _, hr⟩ | ⟨body, t, body', hreq, -, hset, hr⟩ |
      ⟨body, t, es, s', hreq, -, hl, hr⟩ <;> rw [hr]
  · exact h.keyed
  · exact h.keyed.addToWillLists p es
  · obtain ⟨kvs, rfl, rfl⟩ := setItem_eq_ok.1 hset
    refine h.keyed.put_will ?_
    simpa [field, lookup_setField_of_ne] using getItem_eq_ok_iff.1 hreq.key
  · have hs' := h.keyed.addToWillLists (.str t) es
    rw [hl] at hs'
    exact hs'.put_will (getItem_eq_ok_iff.1 hreq.key)

/-- `witness_sign` keeps what runs keep: it rewrites a will with the same testator. -/
theorem ShowInv.witnessSign_step (h : ShowInv s) (req : Request) :
    ShowInv (witnessSign Store.client req s).1 := by
  refine ⟨h.toIndexInv.witnessSign_step req, ?_⟩
  rcases witnessSign_cases req s with ⟨r, hr, -⟩ | ⟨t, w, W, W', -, hW, hsign, hr⟩ <;> rw [hr]
  · exact h.keyed
  · obtain ⟨kvs, es, rfl, -, -, -, rfl⟩ := signBody_eq_some.1 hsign
    refine h.keyed.put_will ?_
    rw [field_signedWill kvs es w (by decide) (by decide)]
    simpa [field] using h.keyed t _ hW

end Show

/-- Every run in which no testator's will key is an index key and no registration names
a will key keeps what `show_will_list` needs. -/
theorem showInv_run (cs : List Call) (hkey : ∀ c ∈ cs, c.CreatesNoIndexKey)
    (hreg : ∀ c ∈ cs, c.NamesNoWillKey) : ShowInv (run cs) :=
  run_invariant (fun cs => ShowInv (run cs)) (fun c => c.CreatesNoIndexKey ∧ c.NamesNoWillKey)
    showInv_empty
    (fun c _ hc h => match c, hc with
      | .registerPubkey _, ⟨_, hn⟩ => h.registerPubkey_step hn
      | .approvePublicKey req, _ => h.approvePublicKey_step req
      | .createWill _, ⟨hk, _⟩ => h.createWill_step hk
      | .witnessSign req, _ => h.witnessSign_step req)
    cs fun c hc => ⟨hkey c hc, hreg c hc⟩

/-- **A witness sees every will that names it**, in a run in which no testator's will
key is an index key and no registration names a will key.  `show_will_list` for the
witness `w` writes nothing, and answers with the wills `Shown` gives for the entries of
the index of `w`.  Among them is every stored will with an entry naming `w` whose
testator has a record, with that record as its `testator`. -/
theorem witness_sees_wills (cs : List Call) (hkey : ∀ c ∈ cs, c.CreatesNoIndexKey)
    (hreg : ∀ c ∈ cs, c.NamesNoWillKey) {req : Request} (hm : req.method = "GET") {w : String}
    (hq : req.queryGet "public_key" = some w) :
    ∃ wills, showWillList Store.client req (run cs) = (run cs, .ok (wrapResponse (.arr wills) 200)) ∧
      (∀ W', W' ∈ wills ↔ ∃ p ∈ indexOf (run cs) w, Shown (run cs) p W') ∧
      ∀ t W es rec, run cs (willPrefix ++ t) = some W → W.field "witnesses" = some (.arr es) →
        es.any (entryNames w) → run cs t = some rec →
        ∃ W', setItem W "testator" rec = .ok W' ∧ W' ∈ wills := by
  have inv := showInv_run cs hkey hreg
  obtain ⟨wills, hrun, hmem⟩ := showWillList_run hm hq (inv.shape w)
  refine ⟨wills, hrun, hmem, fun t W es rec hW hws hany hrec => ?_⟩
  obtain ⟨kvs, rfl⟩ : ∃ kvs, W = .obj kvs := by
    cases W <;> simp [field] at hws
    exact ⟨_, rfl⟩
  -- the testator is on the index of `w`, and its will names it
  obtain ⟨e, he, hnames⟩ := List.any_eq_true.1 hany
  obtain ⟨w', hw', hin⟩ := inv.listed t _ es hW hws e he
  obtain rfl := entryNames_inj hw' hnames
  have hk : getItem (.obj kvs) "public_key" = .ok (.str t) :=
    getItem_eq_ok_iff.2 (by simpa using inv.keyed t _ hW)
  exact ⟨_, rfl, (hmem _).2 ⟨.str t, hin, t, _, t, rec, rfl, hW, hk, hrec, rfl⟩⟩

theorem witness_sees_wills_alice :
    let cs := [Call.createWill ⟨"POST", some (.obj [("public_key", .str "alice"),
        ("witnesses", .arr [.obj [("public_key", .str "bob")]])]), []⟩,
      Call.registerPubkey ⟨"POST", some (.obj [("public_key", .str "alice")]), []⟩]
    let req : Request := ⟨"GET", none, [("public_key", "bob")]⟩
    (∀ c ∈ cs, c.CreatesNoIndexKey) ∧ (∀ c ∈ cs, c.NamesNoWillKey) ∧ req.method = "GET" ∧
      req.queryGet "public_key" = some "bob" ∧
    ∃ wills, showWillList Store.client req (run cs) = (run cs, .ok (wrapResponse (.arr wills) 200)) ∧
      (∀ W', W' ∈ wills ↔ ∃ p ∈ indexOf (run cs) "bob", Shown (run cs) p W') ∧
      ∀ t W es rec, run cs (willPrefix ++ t) = some W → W.field "witnesses" = some (.arr es) →
        es.any (entryNames "bob") → run cs t = some rec →
        ∃ W', setItem W "testator" rec = .ok W' ∧ W' ∈ wills := by
  intro cs req
  have hkey : ∀ c ∈ cs, c.CreatesNoIndexKey := by
    simp only [cs, List.mem_cons, List.mem_singleton, List.not_mem_nil, or_false, forall_eq_or_imp,
      forall_eq, Call.CreatesNoIndexKey, and_true]
    intro body t hreq w ht
    have h0 : CreateRequest ⟨"POST", some (.obj [("public_key", .str "alice"),
        ("witnesses", .arr [.obj [("public_key", .str "bob")]])]), []⟩
        (.obj [("public_key", .str "alice"), ("witnesses", .arr [.obj [("public_key", .str "bob")]])])
        (.str "alice") := ⟨rfl, rfl, rfl, rfl⟩
    obtain rfl := JSON.str.inj (hreq.unique h0).2
    simp [String.ext_iff] at ht
  have hreg : ∀ c ∈ cs, c.NamesNoWillKey := by
    simp only [cs, List.mem_cons, List.mem_singleton, List.not_mem_nil, or_false, forall_eq_or_imp,
      forall_eq, Call.NamesNoWillKey, true_and]
    intro record k hr hk
    have h0 : RegisterRequest ⟨"POST", some (.obj [("public_key", .str "alice")]), []⟩
        (.obj [("public_key", .str "alice"), ("status", .str "need_review")]) (.str "alice") :=
      ⟨rfl, ⟨_, rfl, rfl, rfl⟩, rfl⟩
    obtain rfl := JSON.str.inj (hr.unique h0).2
    obtain ⟨rest, h⟩ := hk
    simp [String.ext_iff, willPrefix] at h
  exact ⟨hkey, hreg, rfl, rfl, witness_sees_wills cs hkey hreg rfl rfl⟩

/-- The index is never pruned: after `a` replaces a will naming `b` by one naming only
`c`, `show_will_list` still shows `b` the will of `a`. -/
example :
    (showWillList Store.client ⟨"GET", none, [("public_key", "b")]⟩
      (run [.createWill ⟨"POST", some (.obj [("public_key", .str "a"),
          ("witnesses", .arr [.obj [("public_key", .str "c")]])]), []⟩,
        .createWill ⟨"POST", some (.obj [("public_key", .str "a"),
          ("witnesses", .arr [.obj [("public_key", .str "b")]])]), []⟩,
        .registerPubkey ⟨"POST", some (.obj [("public_key", .str "a")]), []⟩])).2
      = .ok (wrapResponse (.arr [.obj [("public_key", .str "a"),
          ("witnesses", .arr [.obj [("public_key", .str "c")]]),
          ("testator", .obj [("public_key", .str "a"), ("status", .str "need_review")])]]) 200) :=
  rfl

end IntkeyWill
