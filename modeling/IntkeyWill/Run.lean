import IntkeyWill.Frame

/-!
# Runs of requests

A run is a finite sequence of requests to the four handlers that write, served one
after another on the ledger with immediate commit, from the empty ledger.  It is
written as a list with the most recent request first, so that a run grows at its head
and every result about runs is proved by induction on the list, one request at a time.

The results about a run's past are of one shape: since the last successful request of
one kind, a successful request of another kind was made.  `Since` is that condition,
searched from the most recent request.

## Main definitions

* `Call`, `Call.handle`, `Call.step` — a request to one of the writing handlers, and
  serving it.
* `Call.Registers`, `Call.Approves`, `Call.Creates`, `Call.Signs` — which key a request
  registers or approves, which will it creates, which signature it gives.
* `run`, `Call.Succeeds`, `Since` — the ledger after a run, success, and the history
  condition.

## Main results

* `run_invariant` — a property of runs that holds of the empty run and that every
  allowed request keeps holds of every run of allowed requests.
-/

namespace IntkeyWill

/-- A request to one of the four handlers that write. -/
inductive Call where
  /-- A request routed to `/register`. -/
  | registerPubkey (req : Request)
  /-- A request routed to `/admin/approve`. -/
  | approvePublicKey (req : Request)
  /-- A request routed to `/will/create`. -/
  | createWill (req : Request)
  /-- A request routed to `/will/witness_sign`. -/
  | witnessSign (req : Request)

namespace Call

/-- The handler a call is routed to, over a client. -/
def handle {σ : Type} (c : Client σ) : Call → Py σ Response
  | registerPubkey req => IntkeyWill.registerPubkey c req
  | approvePublicKey req => IntkeyWill.approvePublicKey c req
  | createWill req => IntkeyWill.createWill c req
  | witnessSign req => IntkeyWill.witnessSign c req

/-- Serving a call on the ledger with immediate commit. -/
def step (call : Call) (s : Store) : Store × Except PyErr Response := call.handle Store.client s

/-- The call registers the key `k` with a record satisfying `P`. -/
def Registers (k : String) (P : JSON → Prop) : Call → Prop
  | registerPubkey req => ∃ record, RegisterRequest req record (.str k) ∧ P record
  | _ => False

/-- The call approves the key `k`. -/
def Approves (k : String) : Call → Prop
  | approvePublicKey req => ApproveRequest req k
  | _ => False

/-- The call creates the will of the testator `t`. -/
def Creates (t : String) : Call → Prop
  | createWill req => ∃ body, CreateRequest req body (.str t)
  | _ => False

/-- The call is the signature of the witness `w` on the will of `t`. -/
def Signs (t w : String) : Call → Prop
  | witnessSign req => SignRequest req t w
  | _ => False

/-- The call goes to `register_pubkey` or `approve_public_key`. -/
def IsRegistry : Call → Prop
  | registerPubkey _ | approvePublicKey _ => True
  | _ => False

/-- The call goes to `create_will` or `witness_sign`. -/
def IsWill : Call → Prop
  | createWill _ | witnessSign _ => True
  | _ => False

end Call

/-- The ledger after the calls `cs`, the most recent first, served from the empty
ledger. -/
def run : List Call → Store
  | [] => Store.empty
  | c :: cs => (c.step (run cs)).1

/-- The most recent call `c` of the run `c :: cs` succeeded. -/
def Call.Succeeds (c : Call) (cs : List Call) : Prop := Succeeded (c.step (run cs)).2

/-- Since the last successful call satisfying `stop`, a successful call satisfying `p`
was made: the history `cs` is searched from its most recent call. -/
def Since (p stop : Call → Prop) : List Call → Prop
  | [] => False
  | c :: cs => ¬ (stop c ∧ c.Succeeds cs) ∧ (p c ∧ c.Succeeds cs ∨ Since p stop cs)

@[simp] theorem run_nil : run [] = Store.empty := rfl

@[simp] theorem run_cons (c : Call) (cs : List Call) : run (c :: cs) = (c.step (run cs)).1 := rfl

@[simp] theorem since_nil (p stop : Call → Prop) : ¬ Since p stop [] := id

theorem since_cons (p stop : Call → Prop) (c : Call) (cs : List Call) :
    Since p stop (c :: cs) ↔ ¬ (stop c ∧ c.Succeeds cs) ∧ (p c ∧ c.Succeeds cs ∨ Since p stop cs) :=
  Iff.rfl

/-- A call that does not succeed leaves the history as it was. -/
theorem since_cons_of_not_succeeds {p stop : Call → Prop} {c : Call} {cs : List Call}
    (h : ¬ c.Succeeds cs) : Since p stop (c :: cs) ↔ Since p stop cs := by
  simp [since_cons, h]

/-- A call matching neither condition leaves the history as it was. -/
theorem since_cons_of_not {p stop : Call → Prop} {c : Call} {cs : List Call}
    (hp : ¬ p c) (hs : ¬ stop c) : Since p stop (c :: cs) ↔ Since p stop cs := by
  simp [since_cons, hp, hs]

/-- A successful call counts, and stops the search when it satisfies `stop`. -/
theorem since_cons_of_succeeds {p stop : Call → Prop} {c : Call} {cs : List Call}
    (h : c.Succeeds cs) : Since p stop (c :: cs) ↔ ¬ stop c ∧ (p c ∨ Since p stop cs) := by
  simp [since_cons, h]

/-- With no call satisfying `p`, `p` was never since anything. -/
theorem not_since_of_forall {p stop : Call → Prop} :
    ∀ {cs : List Call}, (∀ c ∈ cs, ¬ p c) → ¬ Since p stop cs
  | [], _ => id
  | c :: cs, h => fun ⟨_, h'⟩ =>
    h'.elim (fun hc => h c (List.mem_cons_self c cs) hc.1)
      (not_since_of_forall fun c' hc' => h c' (List.mem_cons_of_mem c hc'))

/-- What is searched since a stop is searched since the beginning. -/
theorem Since.ever {p stop : Call → Prop} : ∀ {cs : List Call}, Since p stop cs → Since p (fun _ => False) cs
  | _ :: _, ⟨_, .inl h⟩ => ⟨fun h' => h'.1, .inl h⟩
  | _ :: _, ⟨_, .inr h⟩ => ⟨fun h' => h'.1, .inr h.ever⟩

/-- For two kinds of call that exclude each other, once a `p` was made, either a `p`
was made since the last `q` or a `q` since the last `p`, never both. -/
theorem not_since_iff_since {p q : Call → Prop} (hpq : ∀ c, p c → ¬ q c) :
    ∀ {cs : List Call}, Since p (fun _ => False) cs → (¬ Since p q cs ↔ Since q p cs)
  | c :: cs, h => by
    by_cases hs : c.Succeeds cs
    · rw [since_cons_of_succeeds hs] at h ⊢
      rw [since_cons_of_succeeds hs]
      by_cases hp : p c
      · simp [hp, hpq c hp]
      · by_cases hq : q c
        · simp [hp, hq]
        · simpa [hp, hq] using not_since_iff_since hpq (h.2.resolve_left hp)
    · rw [since_cons_of_not_succeeds hs] at h ⊢
      rw [since_cons_of_not_succeeds hs]
      exact not_since_iff_since hpq h

/-- A successful registration registers the key and the record of its request. -/
theorem registers_iff {req : Request} {record : JSON} {k' : String}
    (h : RegisterRequest req record (.str k')) (k : String) (P : JSON → Prop) :
    (Call.registerPubkey req).Registers k P ↔ k = k' ∧ P record := by
  constructor
  · rintro ⟨r, hr, hP⟩
    obtain ⟨rfl, hk⟩ := h.unique hr
    exact ⟨(JSON.str.inj hk).symm, hP⟩
  · rintro ⟨rfl, hP⟩
    exact ⟨record, h, hP⟩

theorem approves_iff {req : Request} {k' : String} (h : ApproveRequest req k') (k : String) :
    (Call.approvePublicKey req).Approves k ↔ k = k' :=
  ⟨fun h' => h'.unique h, fun hk => hk ▸ h⟩

@[simp] theorem Call.not_approves_registerPubkey (req : Request) (k : String) :
    ¬ (Call.registerPubkey req).Approves k := id

@[simp] theorem Call.not_registers_approvePublicKey (req : Request) (k : String) (P : JSON → Prop) :
    ¬ (Call.approvePublicKey req).Registers k P := id

theorem creates_iff {req : Request} {body : JSON} {t' : String} (h : CreateRequest req body (.str t'))
    (t : String) : (Call.createWill req).Creates t ↔ t = t' :=
  ⟨fun ⟨_, h'⟩ => JSON.str.inj (h'.unique h).2, fun ht => ht ▸ ⟨body, h⟩⟩

theorem signs_iff {req : Request} {t' w' : String} (h : SignRequest req t' w') (t w : String) :
    (Call.witnessSign req).Signs t w ↔ t = t' ∧ w = w' :=
  ⟨fun h' => h'.unique h, fun ⟨ht, hw⟩ => ht ▸ hw ▸ h⟩

@[simp] theorem Call.not_signs_createWill (req : Request) (t w : String) :
    ¬ (Call.createWill req).Signs t w := id

@[simp] theorem Call.not_creates_witnessSign (req : Request) (t : String) :
    ¬ (Call.witnessSign req).Creates t := id

/-- A registry call neither creates a will nor signs one. -/
theorem Call.IsRegistry.not_creates {c : Call} (h : c.IsRegistry) (t : String) : ¬ c.Creates t := by
  cases c <;> simp_all [Call.IsRegistry, Call.Creates]

theorem Call.IsRegistry.not_signs {c : Call} (h : c.IsRegistry) (t w : String) : ¬ c.Signs t w := by
  cases c <;> simp_all [Call.IsRegistry, Call.Signs]

theorem Call.not_approves_of_registers {c : Call} {k k' : String} {P : JSON → Prop}
    (h : c.Registers k P) : ¬ c.Approves k' := by
  cases c <;> simp_all [Call.Registers, Call.Approves]

/-- A property of runs that holds of the empty run and that every allowed request
keeps holds of every run of allowed requests. -/
theorem run_invariant (Inv : List Call → Prop) (allowed : Call → Prop) (h0 : Inv [])
    (hstep : ∀ c cs, allowed c → Inv cs → Inv (c :: cs)) :
    ∀ cs : List Call, (∀ c ∈ cs, allowed c) → Inv cs
  | [], _ => h0
  | c :: cs, h => hstep c cs (h c (List.mem_cons_self c cs))
      (run_invariant Inv allowed h0 hstep cs fun c' hc' => h c' (List.mem_cons_of_mem c hc'))

end IntkeyWill
