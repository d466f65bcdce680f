import IntkeyWill.Json

/-!
# Handlers as computations on the ledger

A REST handler of `intkey_cli.py` reads the request, calls the ledger client a number
of times, and answers with `_wrap_response`.  It runs against some ledger state, may
raise at any step, and the writes it made before raising stay made: a `Py σ α` is
that, a function from the state to the state afterwards and the result or the
exception.

The client is a parameter (`Client σ`): the handlers are written once, and the same
text runs against a ledger that commits each write at once (`IntkeyWill.Store`) and
against one that commits writes later (`IntkeyWill.Delayed`).

## Main definitions

* `Py σ α`, `Py.catchClient`, `Py.catchAll` — the computations, `except
  IntkeyClientException` and a bare `except`.
* `Client` — `get_value` and `client.set` of the ledger client.
* `Request`, `Response`, `wrapResponse` — the HTTP boundary.
* `willPrefix`, `willListPrefix`, `keyNeedReview`, `IsWillKey` — the key encoding of
  the module: an index key `WILL_LIST_w` is the will key of `LIST_w`.
-/

namespace IntkeyWill

/-- A handler step against ledger state `σ`: the state afterwards, and the result or
the exception raised.  What was written before a raise stays written. -/
def Py (σ α : Type) : Type := σ → σ × Except PyErr α

namespace Py

variable {σ α β : Type}

/-- Continue with `f` after a step that ended in state `s` with result `r`. -/
def andThen (r : σ × Except PyErr α) (f : α → Py σ β) : σ × Except PyErr β :=
  match r with
  | (s, .ok a) => f a s
  | (s, .error e) => (s, .error e)

instance : Monad (Py σ) where
  pure a := fun s => (s, .ok a)
  bind m f := fun s => andThen (m s) f

instance : MonadLift (Except PyErr) (Py σ) where
  monadLift x := fun s => (s, x)

/-- `try: m` then `except IntkeyClientException: h`, run in the state `m` left. -/
def catchClient (m h : Py σ α) : Py σ α := fun s =>
  match m s with
  | (s', .error .keyNotFound) => h s'
  | r => r

/-- `try: m` then a bare `except: pass`, leaving `d`. -/
def catchAll (m : Py σ α) (d : α) : Py σ α := fun s =>
  match m s with
  | (s', .error _) => (s', .ok d)
  | r => r

@[simp] theorem andThen_ok (s : σ) (a : α) (f : α → Py σ β) :
    andThen (s, .ok a) f = f a s := rfl

@[simp] theorem andThen_error (s : σ) (e : PyErr) (f : α → Py σ β) :
    andThen (s, .error e) f = (s, .error e) := rfl

@[simp] theorem run_pure (a : α) (s : σ) : (pure a : Py σ α) s = (s, .ok a) := rfl

@[simp] theorem run_bind (m : Py σ α) (f : α → Py σ β) (s : σ) :
    (m >>= f) s = andThen (m s) f := rfl

@[simp] theorem run_lift (x : Except PyErr α) (s : σ) :
    (monadLift x : Py σ α) s = (s, x) := rfl

/-- Returning a value after a step leaves the state the step left. -/
theorem andThen_pure_fst (r : σ × Except PyErr α) (f : α → β) :
    (andThen r fun a => (pure (f a) : Py σ β)).1 = r.1 := by
  obtain ⟨s, _ | _⟩ := r <;> rfl

end Py

/-! ### The ledger client -/

/-- The ledger client a handler gets from `_get_client(global_args)`.  `getValue` is
`get_value(global_args, key)`, which returns `client.show(key)`; `set` is
`client.set(key, value, global_args.wait)`.  Both take the key as the handler passes
it, which need not be a string. -/
structure Client (σ : Type) where
  /-- `get_value(global_args, key)`. -/
  getValue : JSON → Py σ JSON
  /-- `client.set(key, value, global_args.wait)`; the receipt is only logged. -/
  set : JSON → JSON → Py σ Unit

/-! ### Requests and responses -/

/-- An HTTP request, as much of it as the handlers read. -/
structure Request where
  /-- `request.method`. -/
  method : String
  /-- What `await request.json()` decodes, or `none` when the body is not JSON. -/
  body : Option JSON
  /-- `request.url.query`, in order. -/
  query : List (String × String)

/-- `await request.json()`. -/
def Request.json (req : Request) : Except PyErr JSON :=
  match req.body with
  | some b => .ok b
  | none => .error .jsonDecodeError

/-- `request.url.query.get(k, None)`: the first value given for `k`. -/
def Request.queryGet (req : Request) (k : String) : Option String := req.query.lookup k

/-- A response: its HTTP status and the JSON envelope serialised as its text. -/
structure Response where
  status : Nat
  envelope : JSON

/-- `_wrap_response(request, data=data, status=status)`: the envelope carries `data`
unless it is `None`. -/
def wrapResponse (data : JSON) (status : Nat) : Response :=
  ⟨status, match data with
    | .null => .obj []
    | d => .obj [("data", d)]⟩

/-- A handler's result is a success: a response with status 200 that carries data.  The
answer to a request with the wrong method carries none. -/
def Succeeded (r : Except PyErr Response) : Prop :=
  ∃ resp, r = .ok resp ∧ resp.status = 200 ∧ resp.envelope ≠ .obj []

theorem succeeded_wrapResponse {d : JSON} (hd : d ≠ .null) : Succeeded (.ok (wrapResponse d 200)) :=
  ⟨_, rfl, rfl, by cases d <;> simp_all [wrapResponse]⟩

@[simp] theorem not_succeeded_error (e : PyErr) : ¬ Succeeded (.error e) := by
  simp [Succeeded]

@[simp] theorem not_succeeded_null : ¬ Succeeded (.ok (wrapResponse .null 200)) := by
  simp [Succeeded, wrapResponse]

@[simp] theorem not_succeeded_400 (d : JSON) : ¬ Succeeded (.ok (wrapResponse d 400)) := by
  simp [Succeeded, wrapResponse]

/-- The `data` of a rejected request: `{'success': False, 'error': msg}`. -/
def failure (msg : String) : JSON := .obj [("success", .bool false), ("error", .str msg)]

/-- `{'processing': True}`, the answer to a write that was submitted. -/
def processing : JSON := .obj [("processing", .bool true)]

/-! ### Keys -/

/-- `WILL_PREFIX`: a testator's will lives under `willPrefix ++ testator`. -/
def willPrefix : String := "WILL_"

/-- `WILL_LIST_PREFIX`: a witness's index lives under `willListPrefix ++ witness`. -/
def willListPrefix : String := "WILL_LIST_"

/-- `KEY_NEED_REVIEW`: the key of the pending-review list. -/
def keyNeedReview : String := "KEY_NEED_REVIEW"

/-- A key of the will ledger: `WILL_` followed by anything, a will's or an index's. -/
def IsWillKey (k : String) : Prop := ∃ rest, k = willPrefix ++ rest

theorem willListPrefix_append (w : String) :
    willListPrefix ++ w = willPrefix ++ ("LIST_" ++ w) := by
  simp [String.ext_iff, willListPrefix, willPrefix]

theorem willPrefix_append_inj {a b : String} : willPrefix ++ a = willPrefix ++ b ↔ a = b := by
  simp [String.ext_iff]

theorem willListPrefix_append_inj {a b : String} :
    willListPrefix ++ a = willListPrefix ++ b ↔ a = b := by
  simp [String.ext_iff]

theorem isWillKey_willPrefix (t : String) : IsWillKey (willPrefix ++ t) := ⟨t, rfl⟩

theorem isWillKey_willListPrefix (w : String) : IsWillKey (willListPrefix ++ w) :=
  ⟨_, willListPrefix_append w⟩

theorem not_isWillKey_keyNeedReview : ¬ IsWillKey keyNeedReview := by
  rintro ⟨rest, h⟩
  simp [String.ext_iff, keyNeedReview, willPrefix] at h

end IntkeyWill
