import IntkeyWill.Run

/-!
# The signing loop of `witness_sign`

`witness_sign` walks the will's witness entries once, with two variables:
`found_witness`, set when an entry names the witness, and `sign_count`, meant to count
the entries that are signed.  An entry that names the witness is marked `signed`.  The
will is marked `valid` when `sign_count` equals the number of entries.

The loop adds one for an entry already signed and one more for an entry that names the
witness, so an entry that is both is counted twice: `sign_count` is the number of
entries signed before the call plus the number that name the witness, which exceeds
the number signed after the call by the entries the witness had signed already.

## Main definitions

* `IsEntry`, `entrySigned`, `entryNames`, `markSigned` — a witness entry, and what the
  loop reads and writes of it.
* `signedWill` — the will `witness_sign` writes back.

## Main results

* `signLoop_entries` — the loop on a list of entries, in closed form.
* `signBody_eq_some` — what `witness_sign` computes when it writes.
* `signCount_eq` — `sign_count` against the entries signed after the call.
-/

namespace IntkeyWill

open JSON

/-! ### Witness entries -/

/-- A witness entry as the loop reads one: a dict with a `public_key`. -/
def IsEntry (e : JSON) : Prop := ∃ kvs, e = .obj kvs ∧ (kvs.lookup "public_key").isSome

/-- `'status' in wn and wn["status"] == 'signed'`. -/
def entrySigned (e : JSON) : Bool := e.field "status" = some (.str "signed")

/-- `wn["public_key"] == witness`. -/
def entryNames (w : String) (e : JSON) : Bool := e.field "public_key" = some (.str w)

/-- The entry after the loop visited it for the witness `w`. -/
def markSigned (w : String) : JSON → JSON
  | .obj kvs =>
    if kvs.lookup "public_key" = some (.str w) then .obj (setField "status" (.str "signed") kvs)
    else .obj kvs
  | e => e

theorem isSigned_obj (kvs : List (String × JSON)) : isSigned (.obj kvs) = .ok (entrySigned (.obj kvs)) := by
  cases h : kvs.lookup "status" <;>
    simp [isSigned, pyIn_str_obj, h, getItem, entrySigned, field, pyEq_str_right_eq]

/-- A signed entry stays signed, and an entry that names the witness becomes signed. -/
theorem entrySigned_markSigned (w : String) (e : JSON) :
    entrySigned (markSigned w e) = (entrySigned e || entryNames w e) := by
  cases e with
  | obj kvs =>
    by_cases h : kvs.lookup "public_key" = some (.str w)
    · simp [markSigned, h, entrySigned, entryNames, field, lookup_setField_self]
    · simp [markSigned, h, entrySigned, entryNames, field]
  | _ => simp [markSigned, entrySigned, entryNames, field]

/-- An entry that does not name the witness is left as it is. -/
theorem markSigned_of_not_names {w : String} {e : JSON} (h : entryNames w e = false) :
    markSigned w e = e := by
  cases e <;> simp_all [markSigned, entryNames, field]

/-- Only the status of an entry changes. -/
theorem field_markSigned (w : String) (e : JSON) {k : String} (hk : k ≠ "status") :
    (markSigned w e).field k = e.field k := by
  cases e with
  | obj kvs =>
    by_cases h : kvs.lookup "public_key" = some (.str w) <;>
      simp [markSigned, h, field, lookup_setField_of_ne hk]
  | _ => rfl

theorem entryNames_markSigned (w w' : String) (e : JSON) :
    entryNames w' (markSigned w e) = entryNames w' e := by
  simp [entryNames, field_markSigned w e (show "public_key" ≠ "status" by decide)]

theorem entryNames_inj {w w' : String} {e : JSON} (h : entryNames w e) (h' : entryNames w' e) : w = w' := by
  simp only [entryNames, decide_eq_true_eq] at h h'
  exact JSON.str.inj (Option.some.inj (h.symm.trans h'))

/-! ### The loop -/

theorem signStep_entry (w : String) {e : JSON} (he : IsEntry e) (found : Bool) (count : Nat) :
    signStep w e found count = .ok (markSigned w e, found || entryNames w e,
      count + (if entrySigned e then 1 else 0) + (if entryNames w e then 1 else 0)) := by
  obtain ⟨kvs, rfl, hk⟩ := he
  obtain ⟨pk, hpk⟩ := Option.isSome_iff_exists.1 hk
  by_cases h : pk = .str w
  · subst h
    by_cases hs : entrySigned (.obj kvs) <;>
      simp [signStep, isSigned_obj, hs, getItem, hpk, setItem, markSigned, entryNames, field]
  · by_cases hs : entrySigned (.obj kvs) <;>
      simp [signStep, isSigned_obj, hs, getItem, hpk, h, markSigned, entryNames, field]

/-- An entry the loop gets past is a dict with a `public_key`. -/
theorem isEntry_of_signStep {w : String} {e : JSON} {found : Bool} {count : Nat} {r : JSON × Bool × Nat}
    (h : signStep w e found count = .ok r) : IsEntry e := by
  -- the step reads `wn["public_key"]`, which only a dict with that member has
  obtain ⟨pk, hpk⟩ : ∃ pk, getItem e "public_key" = .ok pk := by
    cases hs : isSigned e with
    | error err => simp [signStep, hs] at h
    | ok b =>
    cases hk : getItem e "public_key" with
    | error err => simp [signStep, hs, hk] at h
    | ok pk => exact ⟨pk, rfl⟩
  obtain ⟨kvs, rfl⟩ := obj_of_getItem_eq_ok hpk
  have hk : kvs.lookup "public_key" = some pk := getItem_eq_ok_iff.1 hpk
  exact ⟨kvs, rfl, by rw [hk]; rfl⟩

/-- **The loop in closed form**: over entries, each entry is marked for the witness,
`found_witness` records whether one names it, and `sign_count` grows by the entries
signed before plus the entries that name the witness. -/
theorem signLoop_entries (w : String) : ∀ (es : List JSON) (found : Bool) (count : Nat),
    (∀ e ∈ es, IsEntry e) →
    signLoop w es found count = .ok (es.map (markSigned w), found || es.any (entryNames w),
      count + es.countP entrySigned + es.countP (entryNames w))
  | [], found, count, _ => by simp [signLoop]
  | e :: es, found, count, h => by
    have ih := signLoop_entries w es (found || entryNames w e)
      (count + (if entrySigned e then 1 else 0) + (if entryNames w e then 1 else 0))
      fun e' he' => h e' (List.mem_cons_of_mem e he')
    simp only [signLoop, signStep_entry w (h e (List.mem_cons_self e es)), except_bind_ok, ih,
      List.map_cons, List.any_cons, List.countP_cons, Bool.or_assoc, except_pure]
    congr 3
    omega

/-- The loop gets past only entries. -/
theorem entries_of_signLoop {w : String} : ∀ {es : List JSON} {found : Bool} {count : Nat}
    {r : List JSON × Bool × Nat}, signLoop w es found count = .ok r → ∀ e ∈ es, IsEntry e
  | [], _, _, _, _ => by simp
  | e :: es, found, count, r, h => by
    simp only [signLoop] at h
    cases hs : signStep w e found count with
    | error err => simp [hs] at h
    | ok r' =>
      obtain ⟨e', found', count'⟩ := r'
      cases hl : signLoop w es found' count' with
      | error err => simp [hs, hl] at h
      | ok r'' =>
        intro e'' he''
        rcases List.mem_cons.1 he'' with rfl | he''
        · exact isEntry_of_signStep hs
        · exact entries_of_signLoop hl e'' he''

/-! ### The will written back -/

/-- `sign_count` at the end of the loop over the entries `es` for the witness `w`. -/
def signCount (w : String) (es : List JSON) : Nat := es.countP entrySigned + es.countP (entryNames w)

/-- The will `witness_sign` writes back for a will with members `kvs` and entries `es`:
the entries marked, and `valid` when `sign_count` equals the number of entries. -/
def signedWill (kvs : List (String × JSON)) (es : List JSON) (w : String) : JSON :=
  let kvs := setField "witnesses" (.arr (es.map (markSigned w))) kvs
  if signCount w es = es.length then .obj (setField "status" (.str "valid") kvs) else .obj kvs

theorem signedWill_witnesses (kvs : List (String × JSON)) (es : List JSON) (w : String) :
    (signedWill kvs es w).field "witnesses" = some (.arr (es.map (markSigned w))) := by
  unfold signedWill
  split <;> simp [field, lookup_setField_self, lookup_setField_of_ne]

theorem signedWill_status (kvs : List (String × JSON)) (es : List JSON) (w : String) :
    (signedWill kvs es w).field "status"
      = if signCount w es = es.length then some (.str "valid") else kvs.lookup "status" := by
  unfold signedWill
  split <;> simp [field, lookup_setField_self, lookup_setField_of_ne]

/-- Every other member of the will is left as it is. -/
theorem field_signedWill (kvs : List (String × JSON)) (es : List JSON) (w : String) {k : String}
    (hs : k ≠ "status") (hw : k ≠ "witnesses") : (signedWill kvs es w).field k = kvs.lookup k := by
  unfold signedWill
  split <;> simp [field, lookup_setField_of_ne hs, lookup_setField_of_ne hw]

/-- The items of a container that are entries make up a list of them, unless there
are none: a dict or a string has strings as items. -/
theorem eq_arr_of_pyIter {ws : JSON} {items : List JSON} (h : pyIter ws = .ok items)
    (hent : ∀ e ∈ items, IsEntry e) (hne : items ≠ []) : ws = .arr items := by
  obtain ⟨e, he⟩ := List.exists_mem_of_ne_nil items hne
  have hstr : ∀ s, e ≠ .str s := by
    rintro s rfl
    obtain ⟨_, h', -⟩ := hent _ he
    cases h'
  cases ws with
  | arr ys => simpa [pyIter] using h
  | obj kvs =>
    simp only [pyIter, Except.ok.injEq] at h
    subst h
    obtain ⟨_, -, rfl⟩ := List.mem_map.1 he
    exact absurd rfl (hstr _)
  | str s =>
    simp only [pyIter, Except.ok.injEq] at h
    subst h
    obtain ⟨_, -, rfl⟩ := List.mem_map.1 he
    exact absurd rfl (hstr _)
  | _ => simp [pyIter] at h

/-- `witness_sign` on a will whose `witnesses` is a list of entries. -/
theorem signBody_entries {kvs : List (String × JSON)} {es : List JSON} (w : String)
    (hw : kvs.lookup "witnesses" = some (.arr es)) (hent : ∀ e ∈ es, IsEntry e) :
    signBody (.obj kvs) w = .ok (if es.any (entryNames w) then some (signedWill kvs es w) else none) := by
  have hget : getItem (.obj kvs) "witnesses" = .ok (.arr es) := getItem_eq_ok_iff.2 hw
  have hget' : getItem (.obj (setField "witnesses" (.arr (es.map (markSigned w))) kvs)) "witnesses"
      = .ok (.arr (es.map (markSigned w))) := getItem_eq_ok_iff.2 (lookup_setField_self _ _ kvs)
  simp only [signBody, hget, except_bind_ok, pyIter, signLoop_entries w es false 0 hent,
    Nat.zero_add, Bool.false_or, setItem, withItems, hget', pyLen, List.length_map, except_pure]
  by_cases hf : es.any (entryNames w)
  · by_cases hc : es.countP entrySigned + es.countP (entryNames w) = es.length <;>
      simp [hf, hc, signedWill, signCount]
  · simp [hf]

/-- **What `witness_sign` writes**: the will is a dict whose `witnesses` is a list of
entries, one of which names the witness, and the will written back is `signedWill`. -/
theorem signBody_eq_some {W W' : JSON} {w : String} :
    signBody W w = .ok (some W') ↔ ∃ kvs es, W = .obj kvs ∧ kvs.lookup "witnesses" = some (.arr es) ∧
      (∀ e ∈ es, IsEntry e) ∧ es.any (entryNames w) ∧ W' = signedWill kvs es w := by
  constructor
  · intro h
    have h₀ := h
    obtain ⟨ws, hws, h⟩ := except_bind_eq_ok.1 h
    obtain ⟨kvs, rfl, hw⟩ : ∃ kvs, W = .obj kvs ∧ kvs.lookup "witnesses" = some ws := by
      cases W <;> simp only [getItem_eq_ok_iff, field, reduceCtorEq] at hws
      exact ⟨_, rfl, hws⟩
    obtain ⟨items, hi, h⟩ := except_bind_eq_ok.1 h
    obtain ⟨r, hl, h⟩ := except_bind_eq_ok.1 h
    have hent := entries_of_signLoop hl
    by_cases hne : items = []
    · subst hne
      simp [signLoop] at hl
      subst hl
      simp [setItem] at h
    · obtain rfl := eq_arr_of_pyIter hi hent hne
      rw [signBody_entries w hw hent] at h₀
      split at h₀
      · exact ⟨kvs, items, rfl, hw, hent, ‹_›, (Option.some.inj (Except.ok.inj h₀)).symm⟩
      · cases h₀
  · rintro ⟨kvs, es, rfl, hw, hent, hf, rfl⟩
    rw [signBody_entries w hw hent, if_pos hf]

/-- `sign_count` counts the entries signed after the call, and once more each entry
that was signed before and names the witness. -/
theorem signCount_eq (w : String) (es : List JSON) :
    signCount w es = (es.map (markSigned w)).countP entrySigned
      + es.countP (fun e => entrySigned e && entryNames w e) := by
  induction es with
  | nil => rfl
  | cons e es ih =>
    simp only [signCount, List.map_cons, List.countP_cons, entrySigned_markSigned] at ih ⊢
    cases entrySigned e <;> cases entryNames w e <;>
      simp only [Bool.or_false, Bool.or_true, Bool.false_or, Bool.true_or, Bool.and_false,
        Bool.and_true, Bool.false_eq_true, ↓reduceIte] <;> omega

/-- Signing twice for `b` marks the will `valid` while `c` has not signed: the second
signature counts `b`'s entry once as signed and once as naming the witness. -/
theorem resign_counts_twice :
    run [.witnessSign ⟨"GET", none, [("public_key", "a"), ("witness", "b")]⟩,
      .witnessSign ⟨"GET", none, [("public_key", "a"), ("witness", "b")]⟩,
      .createWill ⟨"POST", some (.obj [("public_key", .str "a"),
        ("witnesses", .arr [.obj [("public_key", .str "b")], .obj [("public_key", .str "c")]])]), []⟩]
      (willPrefix ++ "a") = some (.obj [("public_key", .str "a"),
        ("witnesses", .arr [.obj [("public_key", .str "b"), ("status", .str "signed")],
          .obj [("public_key", .str "c")]]), ("status", .str "valid")]) := by
  decide

end IntkeyWill
