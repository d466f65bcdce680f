import IntkeyWill.Signing

/-!
# The witness index

`create_will` adds the testator to the index `WILL_LIST_w` of every witness `w` its
will names, reading the index and writing it back with the testator appended unless it
is on it; only then does it write the will.  An index key is the will key of a
testator whose key starts with `LIST_`, so the will of such a testator can overwrite
an index, the index of its own witness included.

## Main definitions

* `indexAfter` — the index `create_will` leaves for one witness, from the one it read.
* `indexOf`, `IndexInv` — the index of a witness as a list, and what runs keep of the
  indexes.

## Main results

* `addToWillLists_ok` — the witness loop, when it finishes, on any ledger.
* `IndexInv.createWill_step`, `IndexInv.witnessSign_step` — one request keeps the
  indexes, when no testator's key starts with `LIST_`.
-/

namespace IntkeyWill

open JSON

/-- The index `create_will` leaves for a witness whose index it read as `prev`: a list
gets `pubkey` unless it has it, nothing becomes `[pubkey]`, and anything else is left
as it is (the handler raises on it unless `pubkey` is in it). -/
def indexAfter (prev : Option JSON) (pubkey : JSON) : JSON :=
  match prev with
  | none => .arr [pubkey]
  | some (.arr L) => .arr (appendNew L pubkey)
  | some v => v

theorem willListAfter_arr (L : List JSON) (pubkey : JSON) :
    willListAfter (.arr L) pubkey = .ok (if L.any (pyEq · pubkey) then none else some (.arr (L ++ [pubkey]))) := by
  by_cases h : L.any (pyEq · pubkey) <;> simp [willListAfter, pyIn_arr, h, pyAppend]

/-- The set insertion of a string is idempotent. -/
theorem appendNew_appendNew_str (L : List JSON) (t : String) :
    appendNew (appendNew L (.str t)) (.str t) = appendNew L (.str t) :=
  appendNew_idem (by simp)

theorem indexAfter_indexAfter_str (prev : Option JSON) (t : String) :
    indexAfter (some (indexAfter prev (.str t))) (.str t) = indexAfter prev (.str t) := by
  rcases prev with _ | ⟨_ | _ | _ | _ | L | _⟩ <;> simp only [indexAfter, appendNew_appendNew_str]
  simp [appendNew]

/-! ### The witness loop on any ledger -/

/-- A pass of the witness loop that raises writes nothing. -/
theorem addToWillList_error {pubkey wn : JSON} {s s' : Store} {e : PyErr}
    (h : addToWillList Store.client pubkey wn s = (s', .error e)) : s' = s := by
  rw [addToWillList_run] at h
  split at h
  · exact (Prod.mk.inj h).1.symm
  · split at h <;> first | exact (Prod.mk.inj h).1.symm | cases h

/-- A pass of the witness loop that finishes leaves `indexAfter` as the witness's
index. -/
theorem addToWillList_ok {pubkey wn : JSON} {s s' : Store}
    (h : addToWillList Store.client pubkey wn s = (s', .ok ())) :
    ∃ w, wn.field "public_key" = some (.str w) ∧
      s' = s.put (willListPrefix ++ w) (indexAfter (s (willListPrefix ++ w)) pubkey) := by
  rw [addToWillList_run] at h
  split at h
  · cases h
  · rename_i key hkey
    obtain ⟨x, hx, hk⟩ := except_bind_eq_ok.1 hkey
    obtain ⟨w, rfl, rfl⟩ := strAdd_eq_ok.1 hk
    refine ⟨w, getItem_eq_ok_iff.1 hx, ?_⟩
    cases hv : s (willListPrefix ++ w) with
    | none =>
      simp only [hv, Option.getD_none, willListAfter_arr, List.any_nil] at h
      simp [indexAfter, appendNew, (Prod.mk.inj h).1.symm]
    | some v =>
      simp only [hv, Option.getD_some] at h
      cases v with
      | arr L =>
        rw [willListAfter_arr] at h
        by_cases hin : L.any (pyEq · pubkey)
        · simp only [hin, if_true] at h
          simp [indexAfter, appendNew, hin, (Prod.mk.inj h).1.symm, Store.put_self hv]
        · simp only [hin, if_false] at h
          simp [indexAfter, appendNew, hin, (Prod.mk.inj h).1.symm]
      | _ =>
        split at h
        · cases h
        · exact (Prod.mk.inj h).1.symm.trans (Store.put_self hv).symm
        · rename_i hl
          obtain ⟨L, hL, -⟩ := willListAfter_some hl
          cases hL

/-- **The witness loop, when it finishes**: every entry names a witness by a string,
and the index of each witness named is `indexAfter` of the one before the loop. -/
theorem addToWillLists_ok (t : String) :
    ∀ (es : List JSON) (s s' : Store), addToWillLists Store.client (.str t) es s = (s', .ok ()) →
      (∀ e ∈ es, ∃ w, entryNames w e) ∧ ∀ w, s' (willListPrefix ++ w) =
        if es.any (entryNames w) then some (indexAfter (s (willListPrefix ++ w)) (.str t))
        else s (willListPrefix ++ w)
  | [], s, s', h => by
    obtain rfl : s = s' := (Prod.mk.inj h).1
    simp
  | wn :: es, s, s', h => by
    simp only [addToWillLists, Py.run_bind] at h
    cases h₁ : addToWillList Store.client (.str t) wn s with
    | mk s₁ r =>
      cases r with
      | error e => simp [h₁] at h
      | ok u =>
        rw [h₁, Py.andThen_ok] at h
        obtain ⟨w₀, hw₀, rfl⟩ := addToWillList_ok h₁
        obtain ⟨hes, hidx⟩ := addToWillLists_ok t es _ s' h
        refine ⟨fun e he => ?_, fun w => ?_⟩
        · rcases List.mem_cons.1 he with rfl | he
          · exact ⟨w₀, by simp [entryNames, hw₀]⟩
          · exact hes e he
        · rw [hidx w]
          by_cases e : w = w₀
          · subst e
            have hn : entryNames w wn = true := by simp [entryNames, hw₀]
            by_cases hr : es.any (entryNames w) <;> simp [hn, hr, indexAfter_indexAfter_str]
          · have hn : entryNames w wn = false := by simp [entryNames, hw₀, Ne.symm e]
            have hk : willListPrefix ++ w ≠ willListPrefix ++ w₀ := by
              simpa [willListPrefix_append_inj] using e
            simp [hn, hk]

/-! ### What `create_will` writes -/

/-- **What `create_will` writes**, when it succeeds for the testator `t`: without
witnesses, the body marked `valid`; with them, the body as it is, and for each witness
`w` it names, unless the index of `w` is the will key of `t`, `indexAfter` of the
index before. -/
theorem createWill_writes (req : Request) (s : Store) {body : JSON} {t : String}
    (hreq : CreateRequest req body (.str t)) (hs : Succeeded (createWill Store.client req s).2) :
    (noWitnesses body = .ok true → ∃ kvs, body = .obj kvs ∧
      (createWill Store.client req s).1 (willPrefix ++ t) = some (.obj (setField "status" (.str "valid") kvs))) ∧
    (noWitnesses body = .ok false → (createWill Store.client req s).1 (willPrefix ++ t) = some body ∧
      ∀ es, WitnessEntries body es → ∀ e ∈ es, ∃ w, entryNames w e ∧ (t ≠ "LIST_" ++ w →
        (createWill Store.client req s).1 (willListPrefix ++ w)
          = some (indexAfter (s (willListPrefix ++ w)) (.str t)))) := by
  rcases createWill_cases req s with
    ⟨r, h, hns⟩ | ⟨_, _, _, e, _, _, _, h⟩ | ⟨body', t', body'', hreq', hn, hset, h⟩ |
      ⟨body', t', es, s', hreq', hes, hl, h⟩ <;> rw [h] at hs ⊢
  · exact absurd hs hns
  · exact absurd hs (not_succeeded_error e)
  · obtain ⟨rfl, ht⟩ := hreq.unique hreq'
    obtain rfl := JSON.str.inj ht
    obtain ⟨kvs, rfl, rfl⟩ := setItem_eq_ok.1 hset
    exact ⟨fun _ => ⟨kvs, rfl, by simp⟩, fun hf => by simp [hn] at hf⟩
  · obtain ⟨rfl, ht⟩ := hreq.unique hreq'
    obtain rfl := JSON.str.inj ht
    refine ⟨fun hn => by simp [hes.1] at hn, fun _ => ⟨by simp, fun es' hes' e he => ?_⟩⟩
    obtain rfl := hes.unique hes'
    obtain ⟨hnames, hidx⟩ := addToWillLists_ok t es s s' hl
    obtain ⟨w, hw⟩ := hnames e he
    refine ⟨w, hw, fun hne => ?_⟩
    have hk : willListPrefix ++ w ≠ willPrefix ++ t := by
      rw [willListPrefix_append, Ne, willPrefix_append_inj]
      exact Ne.symm hne
    have hany : es.any (entryNames w) := List.any_eq_true.2 ⟨e, he, hw⟩
    simp [hk, hidx w, hany]

theorem createWill_writes_once :
    let req : Request := ⟨"POST", some (.obj [("public_key", .str "a"),
      ("witnesses", .arr [.obj [("public_key", .str "b")]])]), []⟩
    let body := JSON.obj [("public_key", .str "a"), ("witnesses", .arr [.obj [("public_key", .str "b")]])]
    CreateRequest req body (.str "a") ∧ Succeeded (createWill Store.client req Store.empty).2 ∧
    (noWitnesses body = .ok true → ∃ kvs, body = .obj kvs ∧
      (createWill Store.client req Store.empty).1 (willPrefix ++ "a")
        = some (.obj (setField "status" (.str "valid") kvs))) ∧
    (noWitnesses body = .ok false → (createWill Store.client req Store.empty).1 (willPrefix ++ "a") = some body ∧
      ∀ es, WitnessEntries body es → ∀ e ∈ es, ∃ w, entryNames w e ∧ ("a" ≠ "LIST_" ++ w →
        (createWill Store.client req Store.empty).1 (willListPrefix ++ w)
          = some (indexAfter (Store.empty (willListPrefix ++ w)) (.str "a")))) := by
  intro req body
  have hreq : CreateRequest req body (.str "a") := ⟨rfl, rfl, rfl, rfl⟩
  have hs : Succeeded (createWill Store.client req Store.empty).2 := by
    rw [show (createWill Store.client req Store.empty).2 = .ok (wrapResponse processing 200) from rfl]
    exact succeeded_wrapResponse (by simp [processing])
  exact ⟨hreq, hs, createWill_writes req Store.empty hreq hs⟩

/-- `create_will` writes no `pending` status, and the will of a testator `LIST_b` is
written over the index of its own witness `b`. -/
theorem createWill_no_pending :
    run [.createWill ⟨"POST", some (.obj [("public_key", .str "a"),
      ("witnesses", .arr [.obj [("public_key", .str "b")]])]), []⟩] (willPrefix ++ "a")
      = some (.obj [("public_key", .str "a"), ("witnesses", .arr [.obj [("public_key", .str "b")]])]) ∧
    run [.createWill ⟨"POST", some (.obj [("public_key", .str "LIST_b"),
      ("witnesses", .arr [.obj [("public_key", .str "b")]])]), []⟩] (willListPrefix ++ "b")
      = some (.obj [("public_key", .str "LIST_b"), ("witnesses", .arr [.obj [("public_key", .str "b")]])]) :=
  ⟨by decide, by decide⟩

/-! ### The indexes over a run -/

/-- The index of the witness `w` as a list; `[]` when it is not one. -/
def indexOf (s : Store) (w : String) : List JSON :=
  match s (willListPrefix ++ w) with
  | some (.arr L) => L
  | _ => []

/-- Every index is absent or a list without two `==` testators. -/
structure IndexShape (s : Store) : Prop where
  shape : ∀ w, s (willListPrefix ++ w) = none ∨ s (willListPrefix ++ w) = some (.arr (indexOf s w))
  distinct : ∀ w, Distinct (indexOf s w)

/-- What a run of will requests keeps of the indexes: their shape, and every witness a
stored will names has the testator on its index. -/
structure IndexInv (s : Store) extends IndexShape s : Prop where
  listed : ∀ t W es, s (willPrefix ++ t) = some W → W.field "witnesses" = some (.arr es) →
    ∀ e ∈ es, ∃ w, entryNames w e ∧ .str t ∈ indexOf s w

/-- No `create_will` request that reaches the ledger has a testator whose will key is
an index key. -/
def Call.CreatesNoIndexKey : Call → Prop
  | .createWill req => ∀ body t, CreateRequest req body (.str t) → ∀ w, t ≠ "LIST_" ++ w
  | _ => True

section Shape

variable {s : Store}

theorem IndexShape.indexAfter_eq (h : IndexShape s) (w : String) (p : JSON) :
    indexAfter (s (willListPrefix ++ w)) p = .arr (appendNew (indexOf s w) p) := by
  rcases h.shape w with hw | hw <;> rw [hw]
  · simp [indexAfter, indexOf, hw, appendNew]
  · rfl

/-- An index key holds no will. -/
theorem IndexShape.not_will (h : IndexShape s) {w : String} {W : JSON}
    (hW : s (willPrefix ++ ("LIST_" ++ w)) = some W) : W.field "witnesses" = none := by
  rw [← willListPrefix_append] at hW
  rcases h.shape w with hw | hw <;> rw [hw] at hW <;> cases hW
  rfl

theorem indexOf_put_index (s : Store) (w w' : String) (L : List JSON) :
    indexOf (s.put (willListPrefix ++ w) (.arr L)) w' = if w' = w then L else indexOf s w' := by
  by_cases e : w' = w <;> simp [indexOf, e, willListPrefix_append_inj]

theorem indexOf_put_will (s : Store) {t : String} (ht : ∀ w, t ≠ "LIST_" ++ w) (v : JSON) (w : String) :
    indexOf (s.put (willPrefix ++ t) v) w = indexOf s w := by
  have : willListPrefix ++ w ≠ willPrefix ++ t := by
    rw [willListPrefix_append, Ne, willPrefix_append_inj]
    exact Ne.symm (ht w)
  simp [indexOf, this]

theorem IndexShape.put_will (h : IndexShape s) {t : String} (ht : ∀ w, t ≠ "LIST_" ++ w) (v : JSON) :
    IndexShape (s.put (willPrefix ++ t) v) := by
  have hk (w : String) : willListPrefix ++ w ≠ willPrefix ++ t := by
    rw [willListPrefix_append, Ne, willPrefix_append_inj]
    exact Ne.symm (ht w)
  refine ⟨fun w => ?_, fun w => ?_⟩ <;> simp only [indexOf_put_will s ht, Store.put_apply, if_neg (hk w)]
  · exact h.shape w
  · exact h.distinct w

/-- The witness loop keeps the shape of the indexes and only adds to them, whether it
finishes or raises. -/
theorem IndexShape.addToWillLists (h : IndexShape s) (pubkey : JSON) (es : List JSON) :
    IndexShape (addToWillLists Store.client pubkey es s).1 ∧
      ∀ w x, x ∈ indexOf s w → x ∈ indexOf (addToWillLists Store.client pubkey es s).1 w := by
  refine addToWillLists_preserves (fun s' => IndexShape s' ∧ ∀ w x, x ∈ indexOf s w → x ∈ indexOf s' w)
    pubkey (fun wn s₁ ⟨h₁, hgrow⟩ => ?_) es s ⟨h, fun _ _ => id⟩
  cases hr : addToWillList Store.client pubkey wn s₁ with
  | mk s₂ r =>
    cases r with
    | error e => simpa [addToWillList_error hr] using ⟨h₁, hgrow⟩
    | ok u =>
      obtain ⟨w₀, -, rfl⟩ := addToWillList_ok hr
      rw [h₁.indexAfter_eq]
      refine ⟨⟨fun w => ?_, fun w => ?_⟩, fun w x hx => ?_⟩ <;> rw [indexOf_put_index]
      · by_cases e : w = w₀
        · simp [e]
        · simpa [e, willListPrefix_append_inj] using h₁.shape w
      · split
        · exact (h₁.distinct w₀).appendNew pubkey
        · exact h₁.distinct w
      · split
        · subst_vars
          exact mem_appendNew_of_mem (hgrow _ x hx)
        · exact hgrow w x hx

end Shape

/-- Writing a will whose witnesses have the testator on their indexes keeps the
indexes. -/
theorem IndexInv.put_will {s : Store} (h : IndexInv s) {t : String} (ht : ∀ w, t ≠ "LIST_" ++ w)
    {v : JSON} (hv : ∀ es, v.field "witnesses" = some (.arr es) →
      ∀ e ∈ es, ∃ w, entryNames w e ∧ .str t ∈ indexOf s w) :
    IndexInv (s.put (willPrefix ++ t) v) := by
  refine ⟨h.toIndexShape.put_will ht v, fun t' W es hW hws => ?_⟩
  simp only [indexOf_put_will s ht]
  by_cases e : t' = t
  · subst e
    simp only [Store.put_apply, if_true, Option.some.injEq] at hW
    subst hW
    exact hv es hws
  · rw [Store.put_apply, if_neg (by simpa [willPrefix_append_inj] using e)] at hW
    exact h.listed t' W es hW hws

/-- The witness loop keeps the indexes, whether it finishes or raises. -/
theorem IndexInv.addToWillLists {s : Store} (h : IndexInv s) (pubkey : JSON) (es : List JSON) :
    IndexInv (addToWillLists Store.client pubkey es s).1 := by
  obtain ⟨hs', hgrow⟩ := h.toIndexShape.addToWillLists pubkey es
  refine ⟨hs', fun t W es' hW hws e he => ?_⟩
  by_cases hidx : ∃ w, t = "LIST_" ++ w
  · obtain ⟨w, rfl⟩ := hidx
    simp [hs'.not_will hW] at hws
  · have hk : ∀ w, willPrefix ++ t ≠ willListPrefix ++ w := fun w e =>
      hidx ⟨w, by rwa [willListPrefix_append, willPrefix_append_inj] at e⟩
    rw [addToWillLists_frame pubkey es s hk] at hW
    obtain ⟨w, hw, hin⟩ := h.listed t W es' hW hws e he
    exact ⟨w, hw, hgrow w _ hin⟩

/-- `create_will` keeps the indexes, when its testator's will key is no index key. -/
theorem IndexInv.createWill_step {s : Store} (h : IndexInv s) {req : Request}
    (hkey : (Call.createWill req).CreatesNoIndexKey) : IndexInv (createWill Store.client req s).1 := by
  rcases createWill_cases req s with
    ⟨r, hr, -⟩ | ⟨_, p, es, e, _, _, _, hr⟩ | ⟨body, t, body', hreq, hn, hset, hr⟩ |
      ⟨body, t, es, s', hreq, hes, hl, hr⟩ <;> rw [hr]
  · exact h
  · exact h.addToWillLists p es
  · -- no witnesses: the will has no entries
    refine h.put_will (hkey body t hreq) fun es hw => ?_
    obtain ⟨kvs, rfl, rfl⟩ := setItem_eq_ok.1 hset
    obtain rfl := noWitnesses_arr hn (by simpa [field, lookup_setField_of_ne] using hw)
    simp
  · -- the loop put the testator on the index of every witness the will names
    have h' := h.addToWillLists (.str t) es
    rw [hl] at h'
    refine h'.put_will (hkey body t hreq) fun es' hw e he => ?_
    have hes' : es' = es := by
      have h2 := hes.2
      rw [getItem_eq_ok_iff.2 hw] at h2
      simpa [pyIter] using h2
    subst hes'
    obtain ⟨hnames, hidx⟩ := addToWillLists_ok t es' s s' hl
    obtain ⟨w, hw⟩ := hnames e he
    refine ⟨w, hw, ?_⟩
    have hany : es'.any (entryNames w) := List.any_eq_true.2 ⟨e, he, hw⟩
    simp only [indexOf, hidx w, hany, if_true, h.indexAfter_eq]
    exact str_mem_appendNew _ t

/-- `witness_sign` keeps the indexes: it rewrites a will, with the same witnesses. -/
theorem IndexInv.witnessSign_step {s : Store} (h : IndexInv s) (req : Request) :
    IndexInv (witnessSign Store.client req s).1 := by
  rcases witnessSign_cases req s with ⟨r, hr, -⟩ | ⟨t, w, W, W', -, hW, hsign, hr⟩ <;> rw [hr]
  · exact h
  · obtain ⟨kvs, es, rfl, hws, -, -, rfl⟩ := signBody_eq_some.1 hsign
    have ht : ∀ w, t ≠ "LIST_" ++ w := by
      rintro w rfl
      have := h.not_will hW
      simp [field, hws] at this
    refine h.put_will ht fun es' hw' e he => ?_
    rw [signedWill_witnesses, Option.some.injEq, JSON.arr.injEq] at hw'
    subst hw'
    obtain ⟨e₀, he₀, rfl⟩ := List.mem_map.1 he
    obtain ⟨w', hn, hin⟩ := h.listed t _ es hW hws e₀ he₀
    exact ⟨w', by rwa [entryNames_markSigned], hin⟩

theorem indexInv_empty : IndexInv Store.empty :=
  ⟨⟨fun _ => .inl rfl, fun _ => List.Pairwise.nil⟩, fun _ _ _ hW => by simp at hW⟩

/-- The will of a testator `LIST_b` is written over the index of the witness `b`, on
which an earlier will had put its testator. -/
theorem list_testator_overwrites_index :
    run [.createWill ⟨"POST", some (.obj [("public_key", .str "LIST_b")]), []⟩,
      .createWill ⟨"POST", some (.obj [("public_key", .str "a"),
        ("witnesses", .arr [.obj [("public_key", .str "b")]])]), []⟩] (willPrefix ++ "a")
      = some (.obj [("public_key", .str "a"), ("witnesses", .arr [.obj [("public_key", .str "b")]])]) ∧
    run [.createWill ⟨"POST", some (.obj [("public_key", .str "LIST_b")]), []⟩,
      .createWill ⟨"POST", some (.obj [("public_key", .str "a"),
        ("witnesses", .arr [.obj [("public_key", .str "b")]])]), []⟩] (willListPrefix ++ "b")
      = some (.obj [("public_key", .str "LIST_b"), ("status", .str "valid")]) :=
  ⟨by decide, by decide⟩

/-- **The witness index never under-reports**, when no testator's will key is an index
key: over a run of `create_will` and `witness_sign` requests, every witness that a
stored will names has an index that is a list without two `==` testators, with the
testator on it. -/
theorem witness_index_complete (cs : List Call) (hwill : ∀ c ∈ cs, c.IsWill)
    (hkey : ∀ c ∈ cs, c.CreatesNoIndexKey) {t : String} {W : JSON} {es : List JSON}
    (hW : run cs (willPrefix ++ t) = some W) (hws : W.field "witnesses" = some (.arr es)) :
    ∀ e ∈ es, ∃ w L, entryNames w e ∧ run cs (willListPrefix ++ w) = some (.arr L) ∧
      Distinct L ∧ .str t ∈ L := by
  have inv : IndexInv (run cs) :=
    run_invariant (fun cs => IndexInv (run cs)) (fun c => c.IsWill ∧ c.CreatesNoIndexKey) indexInv_empty
      (fun c cs hc h => by
        cases c with
        | createWill req => exact h.createWill_step hc.2
        | witnessSign req => exact h.witnessSign_step req
        | _ => exact hc.1.elim)
      cs fun c hc => ⟨hwill c hc, hkey c hc⟩
  intro e he
  obtain ⟨w, hw, hin⟩ := inv.listed t W es hW hws e he
  have hL := (inv.shape w).resolve_left fun h0 => by simp [indexOf, h0] at hin
  exact ⟨w, _, hw, hL, inv.distinct w, hin⟩

theorem witness_index_complete_once :
    let c := Call.createWill ⟨"POST", some (.obj [("public_key", .str "a"),
      ("witnesses", .arr [.obj [("public_key", .str "b")]])]), []⟩
    let es := [JSON.obj [("public_key", .str "b")]]
    let W := JSON.obj [("public_key", .str "a"), ("witnesses", .arr es)]
    (∀ c' ∈ [c], c'.IsWill) ∧ (∀ c' ∈ [c], c'.CreatesNoIndexKey) ∧
    run [c] (willPrefix ++ "a") = some W ∧ W.field "witnesses" = some (.arr es) ∧
    ∀ e ∈ es, ∃ w L, entryNames w e ∧ run [c] (willListPrefix ++ w) = some (.arr L) ∧
      Distinct L ∧ .str "a" ∈ L := by
  intro c es W
  have hwill : ∀ c' ∈ [c], c'.IsWill := by simp [c, Call.IsWill]
  have hkey : ∀ c' ∈ [c], c'.CreatesNoIndexKey := by
    simp only [List.mem_singleton, forall_eq, c, Call.CreatesNoIndexKey]
    intro body t hreq w ht
    have h0 : CreateRequest ⟨"POST", some W, []⟩ W (.str "a") := ⟨rfl, rfl, rfl, rfl⟩
    obtain rfl := JSON.str.inj (hreq.unique h0).2
    simp [String.ext_iff] at ht
  have hW : run [c] (willPrefix ++ "a") = some W := by decide
  exact ⟨hwill, hkey, hW, rfl, witness_index_complete [c] hwill hkey hW rfl⟩

end IntkeyWill
