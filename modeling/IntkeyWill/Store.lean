import IntkeyWill.Py

/-!
# The ledger with immediate commit

With `--wait` given, `client.set` returns once its transaction is committed, so a
handler's next read sees its last write.  The ledger is then one map from string keys
to values, which is all the handlers can observe of it: `Store`, with `Store.client`
the client over it.

## Main definitions

* `Store`, `Store.put` — the ledger and one write to it.
* `Store.client` — `get_value` and `client.set` on it.
* `ReadsFrom` — a client that reads a `Store` seen from its state and writes one key
  at a time: `Store.client`, and the client under delayed commit.
-/

namespace IntkeyWill

/-- The ledger: the value under each key that has one. -/
def Store : Type := String → Option JSON

namespace Store

/-- The ledger before any write. -/
def empty : Store := fun _ => none

/-- The ledger after writing `v` under `k`. -/
def put (s : Store) (k : String) (v : JSON) : Store := fun k' => if k' = k then some v else s k'

@[simp] theorem empty_apply (k : String) : empty k = none := rfl

@[simp] theorem put_apply (s : Store) (k k' : String) (v : JSON) :
    s.put k v k' = if k' = k then some v else s k' := rfl

@[simp] theorem put_put (s : Store) (k : String) (v v' : JSON) :
    (s.put k v).put k v' = s.put k v' := by
  funext k'; by_cases h : k' = k <;> simp [h]

theorem put_comm (s : Store) {k k' : String} (h : k ≠ k') (v v' : JSON) :
    (s.put k v).put k' v' = (s.put k' v').put k v := by
  funext k''; by_cases h₁ : k'' = k <;> by_cases h₂ : k'' = k' <;> simp_all

/-- Writing back the value already there changes nothing. -/
theorem put_self {s : Store} {k : String} {v : JSON} (h : s k = some v) : s.put k v = s := by
  funext k'; by_cases h' : k' = k <;> simp [h', h]

/-- What `client.show(k)` gives for a string key: the value, or `IntkeyClientException`
when `k` was never written. -/
def lookup (s : Store) (k : String) : Except PyErr JSON :=
  match s k with
  | some v => .ok v
  | none => .error .keyNotFound

theorem lookup_of_some {s : Store} {k : String} {v : JSON} (h : s k = some v) :
    s.lookup k = .ok v := by simp [lookup, h]

theorem lookup_of_none {s : Store} {k : String} (h : s k = none) :
    s.lookup k = .error .keyNotFound := by simp [lookup, h]

/-- Modelled from the spec: `IntkeyClient.show`, absent from `src/`, through
`get_value`.  The spec's `Show(key: string) -> JSON | fails(KeyNotFoundError)`; a key
that is not a string has no address and is rejected. -/
def getValue : JSON → Py Store JSON
  | .str k => fun s => (s, s.lookup k)
  | _ => fun s => (s, .error .invalidKey)

/-- Modelled from the spec: `IntkeyClient.set`, absent from `src/`, with `wait` given.
The spec's `Set(key: string, value: JSON, waitSeconds)`; the write is committed when
the call returns, and a key that is not a string is rejected. -/
def set : JSON → JSON → Py Store Unit
  | .str k, v => fun s => (s.put k v, .ok ())
  | _, _ => fun s => (s, .error .invalidKey)

/-- The client over the ledger with immediate commit. -/
def client : Client Store := ⟨getValue, set⟩

@[simp] theorem client_getValue_str (k : String) (s : Store) :
    client.getValue (.str k) s = (s, s.lookup k) := rfl

@[simp] theorem client_set_str (k : String) (v : JSON) (s : Store) :
    client.set (.str k) v s = (s.put k v, .ok ()) := rfl

end Store

/-- The client `c` reads the ledger `view x` of its state `x`, writes through `write`,
and takes string keys only.  This is all the handlers' runs depend on. -/
structure ReadsFrom {σ : Type} (c : Client σ) (view : σ → Store) (write : σ → String → JSON → σ) :
    Prop where
  getValue_str : ∀ k x, c.getValue (.str k) x = (x, (view x).lookup k)
  set_str : ∀ k v x, c.set (.str k) v x = (write x k v, .ok ())
  set_other : ∀ key v x, (∀ k, key ≠ .str k) → c.set key v x = (x, .error .invalidKey)

theorem Store.readsFrom : ReadsFrom Store.client (fun s => s) Store.put :=
  ⟨fun _ _ => rfl, fun _ _ _ => rfl, fun key _ _ hk => by cases key <;> first | rfl | exact absurd rfl (hk _)⟩

end IntkeyWill
