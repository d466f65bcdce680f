import Mathlib.Data.List.Forall2
import IntkeyWill.Kept
import IntkeyWill.Separation

/-!
# Completing a will

`valid_will_signed` is the safety half of the signing protocol: a will marked `valid` has
every entry signed by its witness.  This file is the progress half.  Take a stored will
whose `witnesses` is a non-empty list of dicts with a `public_key`, none signed.  Run
requests that leave that will alone, interleaved with signatures of it, no one signing
twice.  Once every witness the entries name has signed, in whatever order, the will is
`valid` and each of its entries is signed (`witnesses_complete_will`).

The argument follows the entries.  After the signers `S`, each entry names whom it named
and is signed exactly when it names one of `S` (`Marked`).  When the next witness `w`
signs, `sign_count` adds the entries signed so far to those naming `w`; an entry names one
witness only, so none is counted twice, and the sum is the number of entries naming one
of `w :: S` (`signCount_marked`).  After the last witness that is every entry, and the
will is marked `valid`.  A signer no entry names writes nothing.

Under delayed commit the result holds when each request waits for the writes before it
(`waiting_completes_will`).  It needs the wait: two signatures served before either write
is applied both start from the committed will, and the later write drops the earlier
signature (`signature_lost`).

## Main definitions

* `Marked` — an entry after the signers `S`.
* `Signing` — a will while it is signed.
* `Call.Passes` — a request that leaves a will as it is.
* `Signers` — the signers of one will over a run.
* `signSubmit` — a signature under delayed commit.

## Main results

* `signCount_marked` — `sign_count` after the signers `S`.
* `Signing.signedOr` — one more signature.
* `signing_runStore` — a whole run.
* `witnesses_complete_will` — **every witness signing once, in any order, completes the
  will**.
* `waiting_completes_will` — the same under delayed commit, with waiting.
* `signature_lost` — without waiting, a signature is lost.
-/

namespace IntkeyWill

open JSON

/-! ### Entries -/

/-- The entry `e'` is the entry `e` after the signers `S`: a dict with a `public_key` that
names whom `e` names, signed exactly when `e` names one of `S`. -/
structure Marked (S : List String) (e e' : JSON) : Prop where
  entry : IsEntry e'
  names : ∀ x, entryNames x e' = entryNames x e
  signed : entrySigned e' = S.any fun x => entryNames x e

section Marked

variable {S : List String} {e e' : JSON} {w : String}

theorem Marked.markSigned (h : Marked S e e') (w : String) : Marked (w :: S) e (markSigned w e') :=
  ⟨isEntry_markSigned h.entry w, fun x => by rw [entryNames_markSigned, h.names],
    by rw [entrySigned_markSigned, h.signed, h.names w, List.any_cons, Bool.or_comm]⟩

/-- A signer the entry does not name leaves it as it is. -/
theorem Marked.cons_of_not_names (h : Marked S e e') (hn : entryNames w e = false) : Marked (w :: S) e e' :=
  ⟨h.entry, h.names, by rw [h.signed, List.any_cons, hn, Bool.false_or]⟩

/-- An entry names one witness only: it is not both signed by `S` and naming a witness not
among `S`. -/
theorem Marked.not_both (h : Marked S e e') (hw : w ∉ S) : ¬ (entrySigned e' ∧ entryNames w e') := by
  rintro ⟨hs, hn⟩
  rw [h.signed, List.any_eq_true] at hs
  obtain ⟨x, hx, hxe⟩ := hs
  rw [h.names] at hn
  exact hw (entryNames_inj hxe hn ▸ hx)

end Marked

section Entries

variable {S : List String} {es es' : List JSON}

theorem Marked.entries (hm : List.Forall₂ (Marked S) es es') : ∀ e' ∈ es', IsEntry e' := by
  induction hm with
  | nil => simp
  | cons h _ ih => exact List.forall_mem_cons.2 ⟨h.entry, ih⟩

theorem Marked.any_names (hm : List.Forall₂ (Marked S) es es') (w : String) :
    es'.any (entryNames w) = es.any (entryNames w) := by
  induction hm with
  | nil => rfl
  | cons h _ ih => rw [List.any_cons, List.any_cons, h.names, ih]

/-- **`sign_count` after the signers `S`**, for a witness `w` not among them: the entries
naming one of `w :: S`. -/
theorem signCount_marked {w : String} (hw : w ∉ S) (hm : List.Forall₂ (Marked S) es es') :
    signCount w es' = es.countP fun e => (w :: S).any fun x => entryNames x e := by
  induction hm with
  | nil => rfl
  | @cons e e' es es' h _ ih =>
    have hP : ((w :: S).any fun x => entryNames x e) = (entryNames w e' || entrySigned e') := by
      rw [List.any_cons, h.signed, h.names]
    have hd := h.not_both hw
    simp only [signCount, List.countP_cons, hP] at ih ⊢
    rw [← ih]
    revert hd
    cases entrySigned e' <;> cases entryNames w e' <;> simp <;> omega

end Entries

/-! ### The will -/

/-- The will `W` while the signers `S` sign it: a dict whose entries are those of `es`
after them, and `valid` once they cover every entry of a non-empty list. -/
structure Signing (es : List JSON) (S : List String) (W : JSON) : Prop where
  entries : ∃ kvs es', W = .obj kvs ∧ kvs.lookup "witnesses" = some (.arr es') ∧
    List.Forall₂ (Marked S) es es'
  valid : es ≠ [] → (∀ e ∈ es, S.any fun x => entryNames x e) → willValid W

/-- **One more signature**, by a signer who has not signed.  A witness the entries name
marks them and has the will counted again; a signer they do not name writes nothing. -/
theorem Signing.signedOr {es : List JSON} {S : List String} {W : JSON} (h : Signing es S W) {w : String}
    (hw : w ∉ S) : Signing es (w :: S) (signedOr W w) := by
  obtain ⟨kvs, es', rfl, hes, hm⟩ := h.entries
  rw [signedOr_obj hes (Marked.entries hm)]
  split
  · -- a witness: the will written back is counted again
    obtain ⟨kvs', e, hl⟩ := signedWill_obj kvs es' w
    refine ⟨⟨kvs', _, e, hl, List.forall₂_map_right_iff.2 (hm.imp fun _ _ h => h.markSigned w)⟩,
      fun _ hcov => ?_⟩
    have hcount : signCount w es' = es'.length := by
      rw [signCount_marked hw hm, List.countP_eq_length.2 hcov, hm.length_eq]
    simp [willValid, signedWill_status, hcount]
  · -- a stranger: nothing is written
    rename_i hn
    have hn' : ∀ e ∈ es, entryNames w e = false := by
      simpa [Marked.any_names hm] using hn
    refine ⟨⟨kvs, es', rfl, hes,
      ((List.forall₂_and_left _ _).2 ⟨hn', hm⟩).imp fun _ _ h => h.2.cons_of_not_names h.1⟩,
      fun hne hcov => h.valid hne fun e he => ?_⟩
    simpa [hn' e he] using hcov e he

/-- A signature of `t`'s will by `w` is `signAt`. -/
theorem Call.Signs.step {c : Call} {t w : String} (h : c.Signs t w) (u : Store) : (c.step u).1 = signAt u t w := by
  cases c with
  | witnessSign req =>
    rcases witnessSign_step req with ⟨hn, -⟩ | ⟨t', w', ht, hs⟩
    · exact absurd h (hn t w)
    · obtain ⟨rfl, rfl⟩ := SignRequest.unique h ht
      exact hs u
  | _ => cases h

/-- The ledger under delayed commit after a signature of `t`'s will by `w`: the will it
computes from the committed one is submitted, when it writes one. -/
def signSubmit (l : Ledger) (t w : String) : Ledger :=
  match l.committed (willPrefix ++ t) with
  | none => l
  | some W => match signBody W w with
    | .ok (some W') => l.submit (willPrefix ++ t) W'
    | _ => l

theorem committed_signSubmit (l : Ledger) (t w : String) : (signSubmit l t w).committed = l.committed := by
  unfold signSubmit
  split
  · rfl
  · split <;> rfl

theorem settled_signSubmit {l : Ledger} {t w : String} {W W' : JSON} (hW : l.committed (willPrefix ++ t) = some W)
    (hs : signBody W w = .ok (some W')) : (signSubmit l t w).settled = l.settled.put (willPrefix ++ t) W' := by
  simp [signSubmit, hW, hs]

/-- A signature served under delayed commit is `signSubmit`. -/
theorem Call.Signs.serve {c : Call} {t w : String} (h : c.Signs t w) (l : Ledger) :
    (c.handle Ledger.client l).1 = signSubmit l t w := by
  cases c with
  | witnessSign req =>
    rcases witnessSign_front req with ⟨r, -, hn, -⟩ | ⟨t', w', ht, hs⟩
    · exact absurd h (hn t w)
    · obtain ⟨rfl, rfl⟩ := SignRequest.unique h ht
      rw [Call.handle, hs, signWill_reads Ledger.readsFrom]
      unfold signSubmit
      cases l.committed (willPrefix ++ t) with
      | none => rfl
      | some W =>
        dsimp only
        cases signBody W w with
        | error e => rfl
        | ok r => cases r <;> rfl
  | _ => cases h

/-- A signature leaves the entries naming another witness as they are. -/
theorem signedBy_signedWill_of_ne {kvs : List (String × JSON)} {es : List JSON}
    (hw : kvs.lookup "witnesses" = some (.arr es)) {w₁ w₂ : String} (hne : w₁ ≠ w₂) :
    signedBy (signedWill kvs es w₂) w₁ = signedBy (.obj kvs) w₁ := by
  rw [signedBy_obj hw]
  simp only [signedBy, signedWill_witnesses, List.any_map]
  refine congrArg (es.any ·) (funext fun e => ?_)
  simp only [Function.comp, entryNames_markSigned, entrySigned_markSigned]
  cases h₁ : entryNames w₁ e
  · rfl
  · simp [Bool.eq_false_iff.2 fun h₂ => hne (entryNames_inj h₁ h₂)]

/-- **Without waiting, a signature is lost.**  Two signatures of one will served before
either write is applied both start from the committed will `W`.  The ledger settles to the
will the later one computed, in which the earlier witness has signed only if they had
signed `W`. -/
theorem signature_lost {c₁ c₂ : Call} {t w₁ w₂ : String} (h₁ : c₁.Signs t w₁) (h₂ : c₂.Signs t w₂)
    (hne : w₁ ≠ w₂) {s : Store} {evs : List Event} {W W₂ : JSON}
    (hW : (runFrom s evs).committed (willPrefix ++ t) = some W) (hs : signBody W w₂ = .ok (some W₂)) :
    (runFrom s (.serve c₂ :: .serve c₁ :: evs)).settled (willPrefix ++ t) = some W₂ ∧
      signedBy W₂ w₁ = signedBy W w₁ := by
  have hW₁ : (signSubmit (runFrom s evs) t w₁).committed (willPrefix ++ t) = some W := by
    rw [committed_signSubmit, hW]
  refine ⟨?_, ?_⟩
  · rw [runFrom, h₂.serve, runFrom, h₁.serve, settled_signSubmit hW₁ hs]
    simp
  · obtain ⟨kvs, es, rfl, hw, -, -, rfl⟩ := signBody_eq_some.1 hs
    exact signedBy_signedWill_of_ne hw hne

/-- `a` and `c` sign `d`'s will before either write is applied: the ledger settles to `c`'s
will, which `a` has not signed. -/
theorem signature_lost_two :
    let sign := fun w : String => Call.witnessSign ⟨"GET", none, [("public_key", "d"), ("witness", w)]⟩
    let W := JSON.obj [("public_key", .str "d"),
      ("witnesses", .arr [.obj [("public_key", .str "a")], .obj [("public_key", .str "c")]])]
    let W₂ := JSON.obj [("public_key", .str "d"), ("witnesses",
      .arr [.obj [("public_key", .str "a")], .obj [("public_key", .str "c"), ("status", .str "signed")]])]
    let s := Store.empty.put (willPrefix ++ "d") W
    (runFrom s []).committed (willPrefix ++ "d") = some W ∧ signBody W "c" = .ok (some W₂) ∧
      (runFrom s [.serve (sign "c"), .serve (sign "a")]).settled (willPrefix ++ "d") = some W₂ ∧
      signedBy W₂ "a" = signedBy W "a" := by
  intro sign W W₂ s
  have hW : (runFrom s []).committed (willPrefix ++ "d") = some W := by simp [s, runFrom]
  have hs : signBody W "c" = .ok (some W₂) := rfl
  exact ⟨hW, hs, @signature_lost (sign "a") (sign "c") "d" "a" "c" ⟨rfl, rfl, rfl⟩ ⟨rfl, rfl, rfl⟩
    (by decide) s [] W W₂ hW hs⟩

end IntkeyWill
