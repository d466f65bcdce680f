import Mathlib.Data.Rat.Defs

/-!
# Decoded JSON, and the Python operations the handlers apply to it

Every value the REST handlers of `intkey_cli.py` touch is decoded JSON: the request
bodies of `await request.json()`, and the values the ledger client's `show` returns.
In Python these are `None`, `bool`, `int`, `float`, `str`, `list` and `dict`, and the
handlers apply Python's operators to them without checking their shape: `in`,
subscripting, item assignment, `append`, `remove`, `len`, iteration and `+` on strings.
Each of those raises on the wrong kind of value, and the raise is part of what a handler
does, so each is modelled as a function into `Except PyErr`.

Python compares an `int` with a `float` by value, and `True == 1`; `json.loads` also
accepts `NaN`, which is unequal to everything, itself included.  Two dicts are equal
when they map the same keys to equal values, whatever the order of their members.
`pyEq` is that `==`: it compares the normal forms `norm` of its arguments, in which a
boolean is its number and an object keeps one member for each key.

## Main definitions

* `PyNum`, `JSON`, `PyErr` — decoded numbers and values, and the exceptions raised.
* `JSON.pyEq` — Python's `==` on decoded values.
* `pyIn`, `getItem`, `setItem`, `pyAppend`, `pyRemove`, `pyLen`, `pyIter`, `strAdd` —
  `x in y`, `y[k]`, `y[k] = v`, `y.append(v)`, `y.remove(v)`, `len(y)`, `for _ in y`
  and `p + y`.

## References

`src/sdk/examples/intkey_python/sawtooth_intkey/client_cli/intkey_cli.py`.
-/

namespace IntkeyWill

/-! ### Values -/

/-- A decoded JSON number: an `int` or a finite `float`, by its value, or one of the
non-finite floats `json.loads` accepts. -/
inductive PyNum where
  /-- A finite number. -/
  | finite (q : ℚ)
  /-- `Infinity` or, when `neg`, `-Infinity`. -/
  | inf (neg : Bool)
  /-- `NaN`. -/
  | nan
  deriving DecidableEq, Repr

namespace PyNum

/-- Python's `==` on numbers: by value, and `NaN` equal to nothing. -/
def pyEq : PyNum → PyNum → Bool
  | finite a, finite b => a == b
  | inf a, inf b => a == b
  | _, _ => false

end PyNum

/-- A decoded JSON value.  An object lists its members in order; a decoded object has
distinct keys, and on a list with a repeated key the operations see its first
occurrence. -/
inductive JSON where
  /-- `null`, Python's `None`. -/
  | null
  /-- `true` or `false`. -/
  | bool (b : Bool)
  /-- A number. -/
  | num (n : PyNum)
  /-- A string. -/
  | str (s : String)
  /-- An array, a Python `list`. -/
  | arr (xs : List JSON)
  /-- An object, a Python `dict`. -/
  | obj (kvs : List (String × JSON))
  deriving Repr, Inhabited

/-- The exceptions the handlers raise.  Only `keyNotFound` is an
`IntkeyClientException`, the one kind the handlers catch by name. -/
inductive PyErr where
  /-- An operator applied to a value of the wrong kind. -/
  | typeError
  /-- A dict subscripted with a key it lacks. -/
  | keyError
  /-- `append` or `remove` called on a value that is not a list. -/
  | attributeError
  /-- `remove` of a value the list does not hold. -/
  | valueError
  /-- The ledger client's `show` of a key that was never written. -/
  | keyNotFound
  /-- The ledger client called with a key that is not a string. -/
  | invalidKey
  /-- `request.json()` on a body that is not JSON. -/
  | jsonDecodeError
  deriving DecidableEq, Repr

@[simp] theorem except_pure {ε α : Type} (a : α) : (pure a : Except ε α) = .ok a := rfl

@[simp] theorem except_bind_ok {ε α β : Type} (a : α) (f : α → Except ε β) :
    (Except.ok a >>= f) = f a := rfl

@[simp] theorem except_bind_error {ε α β : Type} (e : ε) (f : α → Except ε β) :
    (Except.error e >>= f) = .error e := rfl

theorem except_bind_eq_ok {ε α β : Type} {x : Except ε α} {f : α → Except ε β} {b : β} :
    (x >>= f) = .ok b ↔ ∃ a, x = .ok a ∧ f a = .ok b := by
  cases x <;> simp

namespace JSON

/-! ### Equality of representations -/

mutual

/-- Equality of two values as data, member by member. -/
def beq : JSON → JSON → Bool
  | .null, y => match y with | .null => true | _ => false
  | .bool a, y => match y with | .bool b => a == b | _ => false
  | .num m, y => match y with | .num n => m == n | _ => false
  | .str a, y => match y with | .str b => a == b | _ => false
  | .arr xs, y => match y with | .arr ys => beqList xs ys | _ => false
  | .obj xs, y => match y with | .obj ys => beqFields xs ys | _ => false

/-- `beq` on two lists. -/
def beqList : List JSON → List JSON → Bool
  | [], ys => ys.isEmpty
  | x :: xs, ys => match ys with | y :: ys => beq x y && beqList xs ys | [] => false

/-- `beq` on two member lists. -/
def beqFields : List (String × JSON) → List (String × JSON) → Bool
  | [], ys => ys.isEmpty
  | (k, v) :: xs, ys =>
      match ys with
      | (k', v') :: ys => k == k' && beq v v' && beqFields xs ys
      | [] => false

end

mutual

theorem beq_iff : ∀ a b : JSON, beq a b = true ↔ a = b
  | .null, b | .bool _, b | .num _, b | .str _, b => by cases b <;> simp [beq]
  | .arr xs, b => by
    cases b with
    | arr ys => simp [beq, beqList_iff xs ys]
    | _ => simp [beq]
  | .obj xs, b => by
    cases b with
    | obj ys => simp [beq, beqFields_iff xs ys]
    | _ => simp [beq]

theorem beqList_iff : ∀ xs ys : List JSON, beqList xs ys = true ↔ xs = ys
  | [], ys => by cases ys <;> simp [beqList]
  | x :: xs, ys => by
    cases ys with
    | nil => simp [beqList]
    | cons y ys => simp [beqList, beq_iff x y, beqList_iff xs ys]

theorem beqFields_iff : ∀ xs ys : List (String × JSON), beqFields xs ys = true ↔ xs = ys
  | [], ys => by cases ys <;> simp [beqFields]
  | (k, v) :: xs, ys => by
    cases ys with
    | nil => simp [beqFields]
    | cons kv ys => simp [beqFields, beq_iff v kv.2, beqFields_iff xs ys, Prod.ext_iff, and_assoc]

end

instance : DecidableEq JSON := fun a b => decidable_of_iff _ (beq_iff a b)

/-! ### Python equality -/

/-- The members of a dict that count: the first one of each key. -/
def firstFields : List (String × JSON) → List (String × JSON)
  | [] => []
  | kv :: kvs => kv :: (firstFields kvs).filter (fun kv' => kv'.1 != kv.1)

mutual

/-- The normal form Python's `==` compares: booleans as numbers, objects with the first
member of each key. -/
def norm : JSON → JSON
  | .bool b => .num (.finite (if b then 1 else 0))
  | .arr xs => .arr (normList xs)
  | .obj kvs => .obj (firstFields (normFields kvs))
  | .null => .null
  | .num n => .num n
  | .str s => .str s

/-- `norm` on each element. -/
def normList : List JSON → List JSON
  | [] => []
  | x :: xs => norm x :: normList xs

/-- `norm` on each member's value. -/
def normFields : List (String × JSON) → List (String × JSON)
  | [] => []
  | (k, v) :: kvs => (k, norm v) :: normFields kvs

end

mutual

/-- Equality of normal forms, member by member; `NaN` equals nothing. -/
def eqNorm : JSON → JSON → Bool
  | .null, y => match y with | .null => true | _ => false
  | .bool a, y => match y with | .bool b => a == b | _ => false
  | .num m, y => match y with | .num n => m.pyEq n | _ => false
  | .str a, y => match y with | .str b => a == b | _ => false
  | .arr xs, y => match y with | .arr ys => eqNormList xs ys | _ => false
  | .obj xs, y => match y with
    | .obj ys => xs.length == ys.length && eqNormFields xs ys
    | _ => false

/-- `eqNorm` on two lists, element by element. -/
def eqNormList : List JSON → List JSON → Bool
  | [], ys => ys.isEmpty
  | x :: xs, ys => match ys with | y :: ys => eqNorm x y && eqNormList xs ys | [] => false

/-- Every member of `xs` has its key in `ys`, with an equal value.  Between two objects
in normal form of the same size, that is equality as dicts. -/
def eqNormFields : List (String × JSON) → List (String × JSON) → Bool
  | [], _ => true
  | (k, v) :: xs, ys =>
      (match ys.lookup k with
       | some v' => eqNorm v v'
       | none => false) && eqNormFields xs ys

end

/-- Python's `a == b` on decoded values. -/
def pyEq (a b : JSON) : Bool := eqNorm (norm a) (norm b)

theorem eqNorm_str_right (x : JSON) (s : String) : eqNorm x (.str s) = true ↔ x = .str s := by
  cases x <;> simp [eqNorm]

theorem norm_eq_str (x : JSON) (s : String) : norm x = .str s ↔ x = .str s := by
  cases x <;> simp [norm]

/-- Comparing with a string literal is string equality. -/
@[simp] theorem pyEq_str_right (x : JSON) (s : String) : pyEq x (.str s) = true ↔ x = .str s := by
  rw [pyEq, show norm (.str s) = .str s from rfl, eqNorm_str_right, norm_eq_str]

theorem pyEq_str_right_eq (x : JSON) (s : String) : pyEq x (.str s) = decide (x = .str s) := by
  rw [Bool.eq_iff_iff, pyEq_str_right, decide_eq_true_iff]

theorem eqNorm_str_left (s : String) (y : JSON) : eqNorm (.str s) y = true ↔ y = .str s := by
  cases y <;> simp [eqNorm, @eq_comm _ s]

@[simp] theorem pyEq_str_left (x : JSON) (s : String) : pyEq (.str s) x = true ↔ x = .str s := by
  rw [pyEq, show norm (.str s) = .str s from rfl, eqNorm_str_left, norm_eq_str]

@[simp] theorem pyEq_str_str (a b : String) : pyEq (.str a) (.str b) = decide (a = b) := by
  by_cases h : a = b <;> simp [pyEq, norm, eqNorm, h]

/-! ### Operators -/

/-- Python's `sub in s` on strings: `sub` occurs in `s`. -/
def isInfix (sub : List Char) : List Char → Bool
  | [] => sub.isEmpty
  | c :: cs => sub.isPrefixOf (c :: cs) || isInfix sub cs

/-- Python's `x in y`.  A list is searched with `==`, a dict among its keys (where a
list or a dict is unhashable), a string for a substring; nothing else is a container. -/
def pyIn (x : JSON) : JSON → Except PyErr Bool
  | .arr ys => .ok (ys.any (pyEq · x))
  | .obj kvs =>
      match x with
      | .str k => .ok (kvs.any (·.1 == k))
      | .arr _ | .obj _ => .error .typeError
      | _ => .ok false
  | .str s =>
      match x with
      | .str sub => .ok (isInfix sub.toList s.toList)
      | _ => .error .typeError
  | _ => .error .typeError

/-- Python's `y[k]` with a string `k`: a dict's member; nothing else takes a string
index. -/
def getItem (y : JSON) (k : String) : Except PyErr JSON :=
  match y with
  | .obj kvs =>
      match kvs.lookup k with
      | some v => .ok v
      | none => .error .keyError
  | _ => .error .typeError

/-- Replace the first member at `k`, or add one at the end. -/
def setField (k : String) (v : JSON) : List (String × JSON) → List (String × JSON)
  | [] => [(k, v)]
  | (k', v') :: kvs => if k' = k then (k, v) :: kvs else (k', v') :: setField k v kvs

/-- Python's `y[k] = v` with a string `k`, on a dict. -/
def setItem (y : JSON) (k : String) (v : JSON) : Except PyErr JSON :=
  match y with
  | .obj kvs => .ok (.obj (setField k v kvs))
  | _ => .error .typeError

/-- `y.append(v)`. -/
def pyAppend (y v : JSON) : Except PyErr JSON :=
  match y with
  | .arr ys => .ok (.arr (ys ++ [v]))
  | _ => .error .attributeError

/-- The list without its first element `==` to `v`, if it has one. -/
def removeFirst (v : JSON) : List JSON → Option (List JSON)
  | [] => none
  | y :: ys => if pyEq y v then some ys else (removeFirst v ys).map (y :: ·)

/-- `y.remove(v)`. -/
def pyRemove (y v : JSON) : Except PyErr JSON :=
  match y with
  | .arr ys =>
      match removeFirst v ys with
      | some ys' => .ok (.arr ys')
      | none => .error .valueError
  | _ => .error .attributeError

theorem pyAppend_of_not_arr {y : JSON} (ha : ∀ L, y ≠ .arr L) (v : JSON) :
    pyAppend y v = .error .attributeError := by
  cases y <;> simp_all [pyAppend]

theorem pyRemove_of_not_arr {y : JSON} (ha : ∀ L, y ≠ .arr L) (v : JSON) :
    pyRemove y v = .error .attributeError := by
  cases y <;> simp_all [pyRemove]

/-- `len(y)`. -/
def pyLen : JSON → Except PyErr Nat
  | .str s => .ok s.length
  | .arr ys => .ok ys.length
  | .obj kvs => .ok kvs.length
  | _ => .error .typeError

/-- The items `for _ in y` visits: a list's elements, a dict's keys, a string's
characters. -/
def pyIter : JSON → Except PyErr (List JSON)
  | .arr ys => .ok ys
  | .obj kvs => .ok (kvs.map fun kv => .str kv.1)
  | .str s => .ok (s.toList.map fun c => .str (String.singleton c))
  | _ => .error .typeError

/-- `p + y` for a string `p`. -/
def strAdd (p : String) : JSON → Except PyErr String
  | .str s => .ok (p ++ s)
  | _ => .error .typeError

theorem strAdd_eq_ok {p key : String} {y : JSON} :
    strAdd p y = .ok key ↔ ∃ w, y = .str w ∧ key = p ++ w := by
  cases y <;> simp [strAdd, eq_comm]

@[simp] theorem any_pyEq_str (ys : List JSON) (k : String) :
    ys.any (pyEq · (.str k)) = decide (.str k ∈ ys) := by
  induction ys with
  | nil => rfl
  | cons y ys ih =>
    by_cases h : y = .str k
    · subst h; simp
    · simp [h, Ne.symm h, ih]

/-- A list is searched for a string by equality. -/
@[simp] theorem pyIn_str_arr (k : String) (ys : List JSON) :
    pyIn (.str k) (.arr ys) = .ok (decide (.str k ∈ ys)) := by
  simp [pyIn]

theorem pyIn_arr (x : JSON) (ys : List JSON) : pyIn x (.arr ys) = .ok (ys.any (pyEq · x)) := rfl

theorem lookup_setField_self (k : String) (v : JSON) :
    ∀ kvs : List (String × JSON), (setField k v kvs).lookup k = some v
  | [] => by simp [setField]
  | (k', v') :: kvs => by
    by_cases h : k' = k
    · simp [setField, h]
    · have hk : (k == k') = false := by simpa using Ne.symm h
      simp [setField, h, List.lookup_cons, hk, lookup_setField_self k v kvs]

theorem setItem_eq_ok {y y' : JSON} {k : String} {v : JSON} :
    setItem y k v = .ok y' ↔ ∃ kvs, y = .obj kvs ∧ y' = .obj (setField k v kvs) := by
  cases y <;> simp [setItem, eq_comm]

/-- `y[k] = v` done twice is done once. -/
theorem setField_setField_self (k : String) (v : JSON) :
    ∀ kvs : List (String × JSON), setField k v (setField k v kvs) = setField k v kvs
  | [] => by simp [setField]
  | (k', v') :: kvs => by
    by_cases e : k' = k
    · simp [setField, e]
    · simp [setField, e, setField_setField_self k v kvs]

theorem setItem_setItem_self {y y' : JSON} {k : String} {v : JSON} (h : setItem y k v = .ok y') :
    setItem y' k v = .ok y' := by
  obtain ⟨kvs, rfl, rfl⟩ := setItem_eq_ok.1 h
  simp [setItem, setField_setField_self]

/-- Only a dict can be subscripted with a string. -/
theorem obj_of_getItem_eq_ok {y v : JSON} {k : String} (h : getItem y k = .ok v) :
    ∃ kvs, y = .obj kvs := by
  cases y with
  | obj kvs => exact ⟨kvs, rfl⟩
  | _ => simp [getItem] at h

/-- After `y[k] = v`, `y[k]` is `v`. -/
theorem getItem_setItem_self {y y' : JSON} {k : String} {v : JSON} (h : setItem y k v = .ok y') :
    getItem y' k = .ok v := by
  cases y <;> simp [setItem] at h
  subst h
  simp [getItem, lookup_setField_self]

/-- A member of a dict; `none` for anything else. -/
def field : JSON → String → Option JSON
  | .obj kvs, k => kvs.lookup k
  | _, _ => none

theorem getItem_eq_ok_iff {y v : JSON} {k : String} : getItem y k = .ok v ↔ y.field k = some v := by
  cases y with
  | obj kvs =>
    unfold getItem field
    cases h : kvs.lookup k <;> simp [h]
  | _ => simp [getItem, field]

theorem lookup_setField_of_ne {k k' : String} (h : k' ≠ k) (v : JSON) :
    ∀ kvs : List (String × JSON), (setField k v kvs).lookup k' = kvs.lookup k'
  | [] => by simp [setField, List.lookup_cons, beq_false_of_ne h]
  | (k'', v') :: kvs => by
    by_cases e : k'' = k
    · subst e
      simp [setField, List.lookup_cons, beq_false_of_ne h]
    · simp [setField, e, List.lookup_cons, lookup_setField_of_ne h v kvs]

/-! ### Lists used as sets -/

/-- `ys` with `x` appended, unless an element of `ys` is `==` to `x`: the list-as-set
insertion the handlers write as `if x not in ys: ys.append(x)`. -/
def appendNew (ys : List JSON) (x : JSON) : List JSON := if ys.any (pyEq · x) then ys else ys ++ [x]

/-- No two elements are `==`: what `appendNew` builds. -/
def Distinct (ys : List JSON) : Prop := ys.Pairwise fun a b => pyEq a b = false

theorem Distinct.appendNew {ys : List JSON} (h : Distinct ys) (x : JSON) :
    Distinct (JSON.appendNew ys x) := by
  unfold JSON.appendNew
  split
  · exact h
  · rename_i hx
    refine List.pairwise_append.2 ⟨h, List.pairwise_singleton _ x, fun a ha b hb => ?_⟩
    simp only [List.mem_singleton] at hb
    subst hb
    simpa using fun h' => hx (List.any_eq_true.2 ⟨a, ha, h'⟩)

/-- After inserting a value `==` to itself, the list holds a value `==` to it. -/
theorem any_appendNew {ys : List JSON} {x : JSON} (hx : pyEq x x = true) :
    (appendNew ys x).any (pyEq · x) = true := by
  unfold appendNew
  split
  · assumption
  · simp [hx]

/-- Inserting a value `==` to itself is idempotent; a value holding `NaN` is not `==` to
itself, and is appended again. -/
theorem appendNew_idem {ys : List JSON} {x : JSON} (hx : pyEq x x = true) :
    appendNew (appendNew ys x) x = appendNew ys x := by
  rw [appendNew, if_pos (any_appendNew hx)]

theorem mem_appendNew_of_ne {ys : List JSON} {x y : JSON} (h : y ≠ x) :
    y ∈ appendNew ys x ↔ y ∈ ys := by
  unfold appendNew
  split <;> simp [h]

theorem mem_appendNew {ys : List JSON} {x y : JSON} (h : y ∈ appendNew ys x) : y ∈ ys ∨ y = x := by
  unfold appendNew at h
  split at h <;> simp_all

theorem mem_appendNew_of_mem {ys : List JSON} {x y : JSON} (h : y ∈ ys) : y ∈ appendNew ys x := by
  unfold appendNew
  split <;> simp [h]

theorem str_mem_appendNew (ys : List JSON) (k : String) : .str k ∈ appendNew ys (.str k) := by
  by_cases h : JSON.str k ∈ ys <;> simp [appendNew, h]

/-- In a list without two `==` elements a string occurs at most once, so erasing it
removes it. -/
theorem Distinct.mem_erase_str {ys : List JSON} (h : Distinct ys) (k : String) (y : JSON) :
    y ∈ ys.erase (.str k) ↔ y ≠ .str k ∧ y ∈ ys := by
  induction ys with
  | nil => simp
  | cons a ys ih =>
    obtain ⟨ha, hys⟩ := List.pairwise_cons.1 h
    by_cases hak : a = .str k
    · subst hak
      have hne : y ∈ ys → y ≠ .str k := fun hy hyk => by simpa [hyk] using ha y hy
      simp only [List.erase_cons_head, List.mem_cons]
      constructor
      · exact fun hy => ⟨hne hy, .inr hy⟩
      · rintro ⟨hy, rfl | hy'⟩ <;> trivial
    · simp only [List.erase_cons, beq_iff_eq, hak, if_false, List.mem_cons, ih hys]
      constructor
      · rintro (rfl | ⟨hy, hy'⟩)
        · exact ⟨hak, .inl rfl⟩
        · exact ⟨hy, .inr hy'⟩
      · rintro ⟨hy, rfl | hy'⟩
        · exact .inl rfl
        · exact .inr ⟨hy, hy'⟩

/-- A list of strings without two `==` elements has no duplicates. -/
theorem Distinct.nodup {ys : List JSON} (h : Distinct ys) (hs : ∀ y ∈ ys, ∃ k, y = .str k) :
    ys.Nodup :=
  h.imp_of_mem fun ha _ hab e => by
    obtain ⟨k, rfl⟩ := hs _ ha
    simp [← e] at hab

theorem Distinct.erase {ys : List JSON} (h : Distinct ys) (x : JSON) : Distinct (ys.erase x) :=
  h.sublist (List.erase_sublist x ys)

/-- A value that, if it is a list, has no two `==` elements. -/
def DistinctIfList (v : JSON) : Prop := ∀ L, v = .arr L → Distinct L

theorem distinctIfList_obj (kvs : List (String × JSON)) : DistinctIfList (.obj kvs) :=
  fun _ h => by cases h

/-- A dict is searched for a string among its keys. -/
theorem pyIn_str_obj (k : String) (kvs : List (String × JSON)) :
    pyIn (.str k) (.obj kvs) = .ok (kvs.lookup k).isSome := by
  simp only [pyIn, Except.ok.injEq]
  induction kvs with
  | nil => rfl
  | cons kv kvs ih =>
    obtain ⟨k', v⟩ := kv
    by_cases h : k' = k
    · subst h
      simp
    · have hk : (k == k') = false := beq_false_of_ne (Ne.symm h)
      simp [h, ih, List.lookup_cons, hk]

/-- Removing a string is `List.erase`. -/
theorem removeFirst_str (k : String) : ∀ ys : List JSON, .str k ∈ ys →
    removeFirst (.str k) ys = some (ys.erase (.str k))
  | y :: ys, h => by
    by_cases hy : y = .str k
    · subst hy; simp [removeFirst]
    · have hk : JSON.str k ∈ ys := by simpa [Ne.symm hy] using h
      simp [removeFirst, hy, removeFirst_str k ys hk, List.erase_cons, beq_iff_eq]

end JSON
end IntkeyWill
