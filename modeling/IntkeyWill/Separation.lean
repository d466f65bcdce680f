import IntkeyWill.Order
import IntkeyWill.WillOrder
import IntkeyWill.Review

/-!
# The registry and the will ledger are independent

The will handlers read and write only keys that start with `WILL_`.  A registration or
an approval that names no such key reads and writes only the pending-review list and the
key it names.  So each half of the API leaves the other half's keys as they are (its
frame, `IntkeyWill.Frame`), and computes what it writes to its own keys from its own keys
alone (it is local).  Two steps with complementary frames, each local to its own keys,
commute.  A run that mixes the two kinds of request therefore leaves the ledger that
serving its will requests first and then its registry requests leaves, each kind in its
own order (`registry_wills_commute`): how the two halves interleave does not matter.
More: each half holds, and is answered, what it would be with the other half's requests
left out (`halves_independent`).  So the review of keys, proved for runs of registry
requests, holds over runs of the whole API (`review_whole_api`).

A registration or approval of a `WILL_` key breaks this, as `register_writes_will_key`
shows.

## Main definitions

* `Agree` — two ledgers hold the same under the keys of a set.
* `LocalTo` — a step run from two ledgers that agree on a set of keys leaves two that
  agree on it, with the same result.
* `Call.InRegistry`, `Call.willSide` — a registration or approval that names no will key,
  and the half of the API a call goes to.

## Main results

* `Call.localTo_will`, `Call.localTo_registry` — each half is local to its own keys.
* `registry_will_comm` — a registry request and a will request commute.
* `registry_wills_commute` — a mixed run leaves the ledger of its will requests followed
  by its registry requests.
* `runStore_filter_agree`, `halves_independent` — **neither half sees the other**.
* `since_registry_half`, `review_whole_api` — the review of keys holds over runs of the
  whole API.

## References

`src/sdk/examples/intkey_python/sawtooth_intkey/client_cli/intkey_cli.py`, lines
521–576, 636–728 and 807–880.
-/

namespace IntkeyWill

open JSON

/-! ### Steps local to a set of keys -/

/-- `u` and `u'` hold the same under every key satisfying `K`. -/
def Agree (K : String → Prop) (u u' : Store) : Prop := ∀ k, K k → u k = u' k

theorem Agree.put {K : String → Prop} {u u' : Store} (h : Agree K u u') (k : String) (v : JSON) :
    Agree K (u.put k v) (u'.put k v) := fun k' hk' => by
  by_cases e : k' = k <;> simp [e, h k' hk']

/-- Run from two ledgers that agree on the keys satisfying `K`, `m` leaves two ledgers that
agree on them, and gives the same result. -/
def LocalTo {α : Type} (K : String → Prop) (m : Py Store α) : Prop :=
  ∀ u u', Agree K u u' → Agree K (m u).1 (m u').1 ∧ (m u).2 = (m u').2

section LocalTo

variable {α β : Type} {K : String → Prop}

theorem localTo_pure (a : α) : LocalTo K (pure a) := fun _ _ h => ⟨h, rfl⟩

theorem LocalTo.bind {m : Py Store α} {f : α → Py Store β} (hm : LocalTo K m)
    (hf : ∀ a, LocalTo K (f a)) : LocalTo K (m >>= f) := fun u u' h => by
  simp only [Py.run_bind]
  obtain ⟨ha, hr⟩ := hm u u' h
  revert ha hr
  obtain ⟨v, r⟩ := m u
  obtain ⟨v', r'⟩ := m u'
  rintro ha (rfl : r = r')
  cases r with
  | error e => exact ⟨ha, rfl⟩
  | ok a => exact hf a v v' ha

/-- A computation on the value of `e`, local for each value `e` can have. -/
theorem localTo_lift_bind {e : Except PyErr α} {f : α → Py Store β}
    (hf : ∀ a, e = .ok a → LocalTo K (f a)) : LocalTo K (monadLift e >>= f) := fun u u' h => by
  cases he : e with
  | error err => exact ⟨h, rfl⟩
  | ok a => exact hf a he u u' h

theorem LocalTo.catchClient {m h : Py Store α} (hm : LocalTo K m) (hh : LocalTo K h) :
    LocalTo K (Py.catchClient m h) := fun u u' hu => by
  unfold Py.catchClient
  obtain ⟨ha, hr⟩ := hm u u' hu
  revert ha hr
  obtain ⟨v, r⟩ := m u
  obtain ⟨v', r'⟩ := m u'
  rintro ha (rfl : r = r')
  rcases r with e | a
  · cases e <;> first | exact hh v v' ha | exact ⟨ha, rfl⟩
  · exact ⟨ha, rfl⟩

theorem localTo_getValue {k : String} (hk : K k) : LocalTo K (Store.client.getValue (.str k)) :=
  fun _ _ h => ⟨h, by simp [Store.lookup, h k hk]⟩

/-- A write keeps two ledgers agreeing wherever it writes. -/
theorem localTo_set (key v : JSON) : LocalTo K (Store.client.set key v) := fun _ _ h => by
  cases key with
  | str k => exact ⟨h.put k v, rfl⟩
  | _ => exact ⟨h, rfl⟩

end LocalTo

/-! ### Each half is local to its own keys -/

theorem localTo_addToWillLists (pubkey : JSON) :
    ∀ es : List JSON, LocalTo IsWillKey (addToWillLists Store.client pubkey es)
  | [] => localTo_pure _
  | wn :: es => (localTo_lift_bind fun _ _ => localTo_lift_bind fun key hkey => by
      obtain ⟨w, -, rfl⟩ := strAdd_eq_ok.1 hkey
      exact ((localTo_getValue (isWillKey_willListPrefix w)).catchClient (localTo_pure _)).bind
        fun _ => localTo_lift_bind fun r _ => by
          cases r
          exacts [localTo_pure _, localTo_set _ _]).bind fun _ => localTo_addToWillLists pubkey es

/-- The half of the API a call goes to: `true` for `create_will` and `witness_sign`. -/
def Call.willSide : Call → Bool
  | .createWill _ | .witnessSign _ => true
  | _ => false

/-- A registration or an approval that names no will key. -/
def Call.InRegistry : Call → Prop
  | .registerPubkey req => ∀ record k, RegisterRequest req record (.str k) → ¬ IsWillKey k
  | .approvePublicKey req => ∀ k, ApproveRequest req k → ¬ IsWillKey k
  | _ => False

/-- A will request computes what it writes to the will keys from the will keys alone. -/
theorem Call.localTo_will {c : Call} (hc : c.willSide) : LocalTo IsWillKey c.step := by
  cases c with
  | registerPubkey req | approvePublicKey req => cases hc
  | createWill req =>
    rcases createWill_front req with ⟨r, -, -, h⟩ | ⟨body, pubkey, -, h⟩
    · exact fun u u' hu => by simp [Call.step, Call.handle, h, hu]
    · have e : IntkeyWill.createWill Store.client req
          = saveWill Store.client body pubkey >>= fun _ => pure (wrapResponse processing 200) :=
        funext (h Store.client)
      show LocalTo _ (IntkeyWill.createWill Store.client req)
      rw [e]
      refine LocalTo.bind ?_ fun _ => localTo_pure _
      unfold saveWill
      refine localTo_lift_bind fun b _ => ?_
      cases b
      · simp only [Bool.false_eq_true, ite_false]
        exact localTo_lift_bind fun _ _ => localTo_lift_bind fun es _ =>
          (localTo_addToWillLists pubkey es).bind fun _ => (localTo_pure _).bind fun _ =>
            localTo_lift_bind fun _ _ => localTo_set _ _
      · simp only [ite_true]
        exact localTo_lift_bind fun _ _ => localTo_lift_bind fun _ _ => localTo_set _ _
  | witnessSign req =>
    rcases witnessSign_front req with ⟨r, -, -, h⟩ | ⟨t, w, -, h⟩
    · exact fun u u' hu => by simp [Call.step, Call.handle, h, hu]
    · have e : IntkeyWill.witnessSign Store.client req = signWill Store.client t w :=
        funext (h Store.client)
      show LocalTo _ (IntkeyWill.witnessSign Store.client req)
      rw [e]
      unfold signWill
      exact (localTo_getValue (isWillKey_willPrefix t)).bind fun _ => localTo_lift_bind fun b _ => by
        cases b
        exacts [localTo_pure _, (localTo_set _ _).bind fun _ => localTo_pure _]

/-- A registry request that names no will key computes what it writes outside the will
ledger from the keys outside it alone. -/
theorem Call.localTo_registry {c : Call} (hc : c.InRegistry) : LocalTo (¬ IsWillKey ·) c.step := by
  cases c with
  | createWill req | witnessSign req => cases hc
  | registerPubkey req =>
    rcases registerPubkey_front req with ⟨r, -, -, h⟩ | ⟨record, pubkey, -, h⟩
    · exact fun u u' hu => by simp [Call.step, Call.handle, h, hu]
    · have e : IntkeyWill.registerPubkey Store.client req = savePending Store.client pubkey >>= fun _ =>
          (Store.client.set pubkey record >>= fun _ => pure (wrapResponse processing 200)) :=
        funext (h Store.client)
      show LocalTo _ (IntkeyWill.registerPubkey Store.client req)
      rw [e]
      exact (((localTo_getValue not_isWillKey_keyNeedReview).catchClient
        ((localTo_set _ _).bind fun _ => localTo_pure _)).bind fun _ =>
          localTo_lift_bind fun _ _ => localTo_set _ _).bind fun _ =>
        (localTo_set _ _).bind fun _ => localTo_pure _
  | approvePublicKey req =>
    rcases approvePublicKey_front req with ⟨r, -, -, h⟩ | ⟨k, hk, h⟩
    · exact fun u u' hu => by simp [Call.step, Call.handle, h, hu]
    · have e : IntkeyWill.approvePublicKey Store.client req
          = approveKey Store.client k >>= fun body => pure (wrapResponse body 200) := funext (h Store.client)
      show LocalTo _ (IntkeyWill.approvePublicKey Store.client req)
      rw [e]
      exact ((localTo_getValue (hc k hk)).bind fun _ => localTo_lift_bind fun _ _ =>
        (localTo_set _ _).bind fun _ => (localTo_getValue not_isWillKey_keyNeedReview).bind fun _ =>
          localTo_lift_bind fun _ _ => (localTo_set _ _).bind fun _ => localTo_pure _).bind fun _ =>
        localTo_pure _

/-- A registry request that names no will key writes no will key. -/
theorem Call.frame_registry {c : Call} (hc : c.InRegistry) (u : Store) {k : String} (hk : IsWillKey k) :
    (c.step u).1 k = u k := by
  have hn : k ≠ keyNeedReview := fun e => not_isWillKey_keyNeedReview (e ▸ hk)
  cases c with
  | createWill req | witnessSign req => cases hc
  | registerPubkey req => exact registerPubkey_frame req u hn fun record h => hc record k h hk
  | approvePublicKey req => exact approvePublicKey_frame req u hn fun h => hc k h hk

theorem Call.frame_will {c : Call} (hc : c.willSide) (u : Store) {k : String} (hk : ¬ IsWillKey k) :
    (c.step u).1 k = u k := by
  cases c with
  | registerPubkey req | approvePublicKey req => cases hc
  | createWill req => exact createWill_frame req u hk
  | witnessSign req => exact witnessSign_frame req u hk

/-! ### Commuting the two halves -/

/-- Two steps commute when each leaves the other's keys as they are and computes its own
keys from its own keys alone. -/
theorem comm_of_local {f g : Store → Store} {A : String → Prop}
    (hfF : ∀ u k, ¬ A k → f u k = u k) (hfL : ∀ u u', Agree A u u' → Agree A (f u) (f u'))
    (hgF : ∀ u k, A k → g u k = u k) (hgL : ∀ u u', Agree (¬ A ·) u u' → Agree (¬ A ·) (g u) (g u'))
    (u : Store) : f (g u) = g (f u) := by
  funext k
  by_cases hk : A k
  · -- a key of `f`'s half: `g` left `f`'s input there as it was
    rw [hfL (g u) u (fun k hk => hgF u k hk) k hk, hgF (f u) k hk]
  · rw [hfF (g u) k hk, hgL (f u) u (fun k hk => hfF u k hk) k hk]

/-- **A registry request and a will request commute**, when the registry request names no
will key. -/
theorem registry_will_comm {r w : Call} (hr : r.InRegistry) (hw : w.willSide) (u : Store) :
    (w.step (r.step u).1).1 = (r.step (w.step u).1).1 :=
  @comm_of_local (fun u => (w.step u).1) (fun u => (r.step u).1) IsWillKey
    (fun u _ hk => Call.frame_will hw u hk) (fun u u' h => ((Call.localTo_will hw) u u' h).1)
    (fun u _ hk => Call.frame_registry hr u hk) (fun u u' h => ((Call.localTo_registry hr) u u' h).1) u

theorem runStore_append (s : Store) (cs : List Call) : ∀ cs' : List Call,
    runStore s (cs' ++ cs) = runStore (runStore s cs) cs'
  | [] => rfl
  | c :: cs' => congrArg (fun u => (c.step u).1) (runStore_append s cs cs')

/-- A will request served before a batch of registry requests leaves what it leaves
served after them. -/
theorem will_past_registry {w : Call} (hw : w.willSide) (u : Store) : ∀ rs : List Call,
    (∀ r ∈ rs, r.InRegistry) → (w.step (runStore u rs)).1 = runStore (w.step u).1 rs
  | [], _ => rfl
  | r :: rs, h => by
    show (w.step (r.step (runStore u rs)).1).1 = (r.step (runStore (w.step u).1 rs)).1
    rw [registry_will_comm (h r (List.mem_cons_self r rs)) hw,
      will_past_registry hw u rs fun r' h' => h r' (List.mem_cons_of_mem r h')]

/-- **The two halves of the API are independent**: a run of registry requests that name
no will key and of will requests leaves the ledger that serving its will requests first
and then its registry requests leaves, each kind in the order it came. -/
theorem registry_wills_commute (s : Store) : ∀ cs : List Call, (∀ c ∈ cs, c.InRegistry ∨ c.willSide) →
    runStore s cs = runStore s (cs.filter (fun c => !c.willSide) ++ cs.filter Call.willSide)
  | [], _ => rfl
  | c :: cs, h => by
    have ih := registry_wills_commute s cs fun c' h' => h c' (List.mem_cons_of_mem c h')
    cases hc : c.willSide
    · simp only [List.filter_cons, hc, Bool.not_false, ite_true, Bool.false_eq_true, ite_false,
        List.cons_append]
      exact congrArg (fun u => (c.step u).1) ih
    · simp only [List.filter_cons, hc, Bool.not_true, Bool.false_eq_true, ite_false, ite_true]
      show (c.step (runStore s cs)).1 = _
      rw [ih, runStore_append, runStore_append, will_past_registry hc _ _ fun r hr' => ?_]
      · rfl
      · -- the calls left in the registry part are registry calls
        obtain ⟨hr'', hn⟩ := List.mem_filter.1 hr'
        exact (h r (List.mem_cons_of_mem c hr'')).resolve_right (by simpa using hn)

/-- Four requests of both halves: no registry request names a will key, and none registers
`KEY_NEED_REVIEW`. -/
theorem mixed_four_apart :
    ∀ c ∈ [Call.witnessSign ⟨"GET", none, [("public_key", "b"), ("witness", "a")]⟩,
      Call.approvePublicKey ⟨"GET", none, [("public_key", "a")]⟩,
      Call.createWill ⟨"POST", some (.obj [("public_key", .str "b"),
        ("witnesses", .arr [.obj [("public_key", .str "a")]])]), []⟩,
      Call.registerPubkey ⟨"POST", some (.obj [("public_key", .str "a")]), []⟩],
      (c.InRegistry ∨ c.willSide) ∧ ¬ c.Registers keyNeedReview fun _ => True := by
  have ha : ¬ IsWillKey "a" := by
    rintro ⟨rest, h⟩
    simp [String.ext_iff, willPrefix] at h
  have hreg : RegisterRequest ⟨"POST", some (.obj [("public_key", .str "a")]), []⟩ _ (.str "a") :=
    ⟨rfl, ⟨_, rfl, rfl, rfl⟩, rfl⟩
  simp only [List.mem_cons, List.mem_singleton, List.not_mem_nil, or_false]
  rintro c (rfl | rfl | rfl | rfl)
  · exact ⟨.inr rfl, id⟩
  · refine ⟨.inl fun k hk => ?_, id⟩
    obtain rfl : "a" = k := Option.some.inj hk.key
    exact ha
  · exact ⟨.inr rfl, id⟩
  · refine ⟨.inl fun record k hk => ?_, fun h => ?_⟩
    · obtain rfl : "a" = k := JSON.str.inj (hreg.unique hk).2
      exact ha
    · exact absurd ((registers_iff hreg _ _).1 h).1 (by decide)

/-- `a` registers, `b` writes a will with `a` as its witness, `a` is approved and signs
`b`'s will: served in this order, they leave what the two will requests followed by the
two registry requests leave. -/
theorem registry_wills_commute_four :
    let reg := Call.registerPubkey ⟨"POST", some (.obj [("public_key", .str "a")]), []⟩
    let will := Call.createWill ⟨"POST", some (.obj [("public_key", .str "b"),
      ("witnesses", .arr [.obj [("public_key", .str "a")]])]), []⟩
    let appr := Call.approvePublicKey ⟨"GET", none, [("public_key", "a")]⟩
    let sign := Call.witnessSign ⟨"GET", none, [("public_key", "b"), ("witness", "a")]⟩
    (∀ c ∈ [sign, appr, will, reg], c.InRegistry ∨ c.willSide) ∧
      runStore Store.empty [sign, appr, will, reg] = runStore Store.empty [appr, reg, sign, will] := by
  intro reg will appr sign
  have hcs : ∀ c ∈ [sign, appr, will, reg], c.InRegistry ∨ c.willSide := fun c hc => (mixed_four_apart c hc).1
  exact ⟨hcs, registry_wills_commute Store.empty _ hcs⟩

/-- Without the condition the halves do not commute: registering the key `WILL_b`
and writing `b`'s will both write `WILL_b`, and the later one stays. -/
example :
    let reg := Call.registerPubkey ⟨"POST", some (.obj [("public_key", .str "WILL_b")]), []⟩
    let will := Call.createWill ⟨"POST", some (.obj [("public_key", .str "b")]), []⟩
    runStore Store.empty [will, reg] (willPrefix ++ "b") ≠
      runStore Store.empty [reg, will] (willPrefix ++ "b") := by
  decide

/-! ### Each half on its own -/

/-- **A run projected on one half**: when each request of the run is local to the keys `K`
if `side` holds of it and leaves them as they are otherwise, the run holds under `K` what
its `side` requests alone leave, and each of these gets the answer it gets alone. -/
theorem runStore_filter_agree {K : String → Prop} {side : Call → Bool} (s : Store) :
    ∀ cs : List Call, (∀ c ∈ cs, (side c → LocalTo K c.step) ∧
      (side c = false → ∀ u k, K k → (c.step u).1 k = u k)) →
      Agree K (runStore s cs) (runStore s (cs.filter side)) ∧
        (runAnswers s cs).filter (fun p => side p.1) = runAnswers s (cs.filter side)
  | [], _ => ⟨fun _ _ => rfl, rfl⟩
  | c :: cs, h => by
    obtain ⟨hag, hans⟩ := runStore_filter_agree s cs fun c' h' => h c' (List.mem_cons_of_mem c h')
    obtain ⟨hloc, hfr⟩ := h c (List.mem_cons_self c cs)
    cases hc : side c
    · -- a request of the other half leaves the keys `K`, and its answer is dropped
      simp only [List.filter_cons, hc, Bool.false_eq_true, ↓reduceIte, runAnswers, hans, and_true]
      exact fun k hk => (hfr hc _ k hk).trans (hag k hk)
    · -- a request of this half is served from ledgers that agree under `K`
      obtain ⟨hag', hres⟩ := hloc hc _ _ hag
      simp only [List.filter_cons, hc, ↓reduceIte, runAnswers, hans, hres, and_true]
      exact hag'

/-- The registry half of a mixed run, projected. -/
theorem registry_half (s : Store) (cs : List Call) (h : ∀ c ∈ cs, c.InRegistry ∨ c.willSide) :
    Agree (¬ IsWillKey ·) (runStore s cs) (runStore s (cs.filter fun c => !c.willSide)) ∧
      (runAnswers s cs).filter (fun p => !p.1.willSide) = runAnswers s (cs.filter fun c => !c.willSide) :=
  runStore_filter_agree s cs fun c hc =>
    ⟨fun hw => Call.localTo_registry ((h c hc).resolve_right (by simpa using hw)),
      fun hw u _ hk => Call.frame_will (by simpa using hw) u hk⟩

/-- The will half of a mixed run, projected. -/
theorem will_half (s : Store) (cs : List Call) (h : ∀ c ∈ cs, c.InRegistry ∨ c.willSide) :
    Agree IsWillKey (runStore s cs) (runStore s (cs.filter Call.willSide)) ∧
      (runAnswers s cs).filter (fun p => p.1.willSide) = runAnswers s (cs.filter Call.willSide) :=
  runStore_filter_agree s cs fun c hc => ⟨Call.localTo_will,
    fun hw u _ hk => Call.frame_registry ((h c hc).resolve_right (by simp [hw])) u hk⟩

/-- **Neither half of the API sees the other**: over a run in which no registration or
approval names a will key, the keys outside `WILL_` hold what the registry requests alone
leave, and the `WILL_` keys what the will requests alone leave; and each request gets the
answer it gets when the requests of its half are served alone, in the same order. -/
theorem halves_independent (s : Store) (cs : List Call) (h : ∀ c ∈ cs, c.InRegistry ∨ c.willSide) :
    (Agree (¬ IsWillKey ·) (runStore s cs) (runStore s (cs.filter fun c => !c.willSide)) ∧
      (runAnswers s cs).filter (fun p => !p.1.willSide) = runAnswers s (cs.filter fun c => !c.willSide)) ∧
    (Agree IsWillKey (runStore s cs) (runStore s (cs.filter Call.willSide)) ∧
      (runAnswers s cs).filter (fun p => p.1.willSide) = runAnswers s (cs.filter Call.willSide)) :=
  ⟨registry_half s cs h, will_half s cs h⟩

/-- The run of `registry_wills_commute_four`: each half holds and answers what it holds and
answers alone. -/
theorem halves_independent_four :
    let reg := Call.registerPubkey ⟨"POST", some (.obj [("public_key", .str "a")]), []⟩
    let will := Call.createWill ⟨"POST", some (.obj [("public_key", .str "b"),
      ("witnesses", .arr [.obj [("public_key", .str "a")]])]), []⟩
    let appr := Call.approvePublicKey ⟨"GET", none, [("public_key", "a")]⟩
    let sign := Call.witnessSign ⟨"GET", none, [("public_key", "b"), ("witness", "a")]⟩
    let cs := [sign, appr, will, reg]
    (∀ c ∈ cs, c.InRegistry ∨ c.willSide) ∧
    (Agree (¬ IsWillKey ·) (runStore Store.empty cs) (runStore Store.empty (cs.filter fun c => !c.willSide)) ∧
      (runAnswers Store.empty cs).filter (fun p => !p.1.willSide)
        = runAnswers Store.empty (cs.filter fun c => !c.willSide)) ∧
    (Agree IsWillKey (runStore Store.empty cs) (runStore Store.empty (cs.filter Call.willSide)) ∧
      (runAnswers Store.empty cs).filter (fun p => p.1.willSide)
        = runAnswers Store.empty (cs.filter Call.willSide)) := by
  intro reg will appr sign cs
  have hcs : ∀ c ∈ cs, c.InRegistry ∨ c.willSide := fun c hc => (mixed_four_apart c hc).1
  exact ⟨hcs, halves_independent Store.empty cs hcs⟩

/-! ### The review of keys over the whole API -/

theorem runStore_empty : ∀ cs : List Call, runStore Store.empty cs = run cs
  | [] => rfl
  | c :: cs => by rw [runStore, runStore_empty cs, run_cons]

theorem Call.not_review_of_willSide {c : Call} (hc : c.willSide) (k : String) :
    (∀ P, ¬ c.Registers k P) ∧ ¬ c.Approves k := by
  cases c <;> simp_all [Call.willSide, Call.Registers, Call.Approves]

theorem Call.isRegistry_of_not_willSide {c : Call} (hc : c.willSide = false) : c.IsRegistry := by
  cases c <;> simp_all [Call.willSide, Call.IsRegistry]

/-- A history that only registry requests make reads the same off a run and off its
registry requests, when these are answered alike. -/
theorem since_registry_half {p stop : Call → Prop} (hp : ∀ c, c.willSide → ¬ p c ∧ ¬ stop c) :
    ∀ {cs : List Call}, (runAnswers Store.empty cs).filter (fun x => !x.1.willSide)
        = runAnswers Store.empty (cs.filter fun c => !c.willSide) →
      (Since p stop cs ↔ Since p stop (cs.filter fun c => !c.willSide))
  | [], _ => Iff.rfl
  | c :: cs, hans => by
    cases hc : c.willSide
    · -- a registry request, answered alike in both runs
      simp only [runAnswers, List.filter_cons, hc, Bool.not_false, ↓reduceIte, List.cons.injEq,
        Prod.mk.injEq, true_and] at hans
      simp only [List.filter_cons, hc, Bool.not_false, ↓reduceIte, since_cons, Call.Succeeds,
        ← runStore_empty, hans.1, since_registry_half hp hans.2]
    · simp only [runAnswers, List.filter_cons, hc, Bool.not_true, Bool.false_eq_true, ↓reduceIte] at hans
      simp only [List.filter_cons, hc, Bool.not_true, Bool.false_eq_true, ↓reduceIte]
      exact (since_cons_of_not (hp c hc).1 (hp c hc).2).trans (since_registry_half hp hans)

/-- **The review of keys over the whole API**: over a run of the four writing routes from
the empty ledger in which no registration or approval names a will key and none
registers `KEY_NEED_REVIEW`, the pending-review list is a list without two `==` keys,
a key is on it exactly while it awaits review, a key outside `WILL_` has a record exactly
when it was registered, and its record is approved exactly when the key was approved
since its last registration or that registration carried the status. -/
theorem review_whole_api (cs : List Call) (h : ∀ c ∈ cs, c.InRegistry ∨ c.willSide)
    (hknr : ∀ c ∈ cs, ¬ c.Registers keyNeedReview fun _ => True) :
    Distinct (pendingKeys (run cs)) ∧ (∀ k, .str k ∈ pendingKeys (run cs) ↔ Pending k cs) ∧
      ∀ k, k ≠ keyNeedReview → ¬ IsWillKey k → (run cs k ≠ none ↔ Registered k cs) ∧
        ((∃ v, run cs k = some v ∧ Approved v) ↔ ApprovedSince k cs ∨ RegisteredApproved k cs) := by
  have inv : ReviewInv (cs.filter fun c => !c.willSide) :=
    reviewInv_run _ (fun c hc => Call.isRegistry_of_not_willSide (by simpa using (List.mem_filter.1 hc).2))
      fun c hc => hknr c (List.mem_filter.1 hc).1
  obtain ⟨hag, hans⟩ := registry_half Store.empty cs h
  rw [runStore_empty, runStore_empty] at hag
  -- the histories of a key are made by registry requests alone
  have hsince {p stop : Call → Prop} (hp : ∀ c, c.willSide → ¬ p c ∧ ¬ stop c) :
      Since p stop cs ↔ Since p stop (cs.filter fun c => !c.willSide) :=
    since_registry_half hp hans
  have hr := fun {c : Call} (hc : c.willSide) (k : String) => Call.not_review_of_willSide hc k
  have hpend : pendingKeys (run cs) = pendingKeys (run (cs.filter fun c => !c.willSide)) := by
    simp only [pendingKeys, hag _ not_isWillKey_keyNeedReview]
  refine ⟨hpend ▸ inv.distinct,
    fun k => hpend ▸ (inv.pending k).trans (hsince fun c hc => ⟨(hr hc k).1 _, (hr hc k).2⟩).symm,
    fun k hk hw => ⟨?_, ?_⟩⟩
  · rw [hag k hw]
    exact (inv.recorded k hk).trans (hsince fun c hc => ⟨(hr hc k).1 _, id⟩).symm
  · simp only [hag k hw]
    exact (inv.approved k hk).trans (or_congr (hsince fun c hc => ⟨(hr hc k).2, (hr hc k).1 _⟩)
      (hsince fun c hc => ⟨(hr hc k).1 _, (hr hc k).1 _⟩)).symm

/-- The run of `registry_wills_commute_four` names no will key in its registry requests, and
keeps the review invariant. -/
theorem review_whole_api_four :
    let reg := Call.registerPubkey ⟨"POST", some (.obj [("public_key", .str "a")]), []⟩
    let will := Call.createWill ⟨"POST", some (.obj [("public_key", .str "b"),
      ("witnesses", .arr [.obj [("public_key", .str "a")]])]), []⟩
    let appr := Call.approvePublicKey ⟨"GET", none, [("public_key", "a")]⟩
    let sign := Call.witnessSign ⟨"GET", none, [("public_key", "b"), ("witness", "a")]⟩
    let cs := [sign, appr, will, reg]
    (∀ c ∈ cs, c.InRegistry ∨ c.willSide) ∧ (∀ c ∈ cs, ¬ c.Registers keyNeedReview fun _ => True) ∧
      Distinct (pendingKeys (run cs)) ∧ (∀ k, .str k ∈ pendingKeys (run cs) ↔ Pending k cs) ∧
      ∀ k, k ≠ keyNeedReview → ¬ IsWillKey k → (run cs k ≠ none ↔ Registered k cs) ∧
        ((∃ v, run cs k = some v ∧ Approved v) ↔ ApprovedSince k cs ∨ RegisteredApproved k cs) := by
  intro reg will appr sign cs
  have hcs : ∀ c ∈ cs, c.InRegistry ∨ c.willSide := fun c hc => (mixed_four_apart c hc).1
  have hknr : ∀ c ∈ cs, ¬ c.Registers keyNeedReview fun _ => True := fun c hc => (mixed_four_apart c hc).2
  exact ⟨hcs, hknr, review_whole_api cs hcs hknr⟩

end IntkeyWill
