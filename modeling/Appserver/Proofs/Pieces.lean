/-
What a template is to the code: a sequence of pieces, fixed before any
value is seen.

`evaluate` searches its source only, never what it has appended, so the
literal characters and the names it looks up are those of one scan
(`codePieces`), whatever the values are. `evaluate_pieces` says so for
every store in which no look-up of these names fails, down to what is
asked of memcached, and says that no other sequence would do: over all
stores the pieces can be told from the results.
-/
import Appserver.Proofs.Interpolation

namespace Appserver

open Bytes Ere Template

/-- The template reads as these pieces: whatever answers the names in
them has, the result is the pieces with the answers put in, an undefined
name standing for no text, and the names are what is looked up. -/
def ReadsAs (N : Int) (src : Str) (ps : List (Piece Byte Ref)) : Prop :=
  ∀ (σ : Store) (mc : Memcached) (w : World), Serves mc σ →
    w.symTable = σ.locals → (∀ r ∈ refs ps, ∃ v, σ.answer r = .ok v) →
    (evaluate mc (σ.view N) src).run w
      = (.ok (render (valueOf σ.look) ps),
        { w with log := w.log ++ (refs ps).flatMap Ref.sent })

/-- The pieces of the scan are those the template reads as. -/
theorem readsAs_codePieces (N : Int) (src : Str) :
    ReadsAs N src (codePieces N src) := by
  intro σ mc w hmc hw hans
  have hlook : ∀ r ∈ refs (codePieces N src), ∃ v, σ.look r = .ok v :=
    fun r hr => Store.look_ok_iff.2 (hans r hr)
  rw [evaluate_eq hmc N src hw, fill_of_answers hlook,
    asked_of_answers hlook]

/-- Every name has an answer in a store that holds a valuation. -/
theorem Store.total_answers {val : Ref → Str} (hval : ∀ r, (0 : Byte) ∉ val r)
    (r : Ref) : ∃ v, (Store.total val).answer r = .ok v := by
  rw [← Store.look_ok_iff, Store.look_total hval]
  exact ⟨_, rfl⟩

/-- Over all stores the pieces can be told from the results. -/
theorem ReadsAs.unique {N : Int} {src : Str} {ps qs : List (Piece Byte Ref)}
    (hp : ReadsAs N src ps) (hq : ReadsAs N src qs) : ps = qs := by
  have hA : ({c : Byte | c ≠ 0}).Nontrivial :=
    ⟨1, by decide, 2, by decide, by decide⟩
  apply render_injective hA
  intro val hval
  have hnul : ∀ r, (0 : Byte) ∉ val r := fun r h => hval r 0 h rfl
  have hans := Store.total_answers hnul
  have hpval := hp (Store.total val) _ ⟨(Store.total val).locals, []⟩
    (Store.serves _) rfl fun r _ => hans r
  have hqval := hq (Store.total val) _ ⟨(Store.total val).locals, []⟩
    (Store.serves _) rfl fun r _ => hans r
  have hvalue : valueOf (Store.total val).look = val := by
    funext r
    rw [Store.look_total hnul, valueOf]
  rw [hpval, hvalue] at hqval
  exact Except.ok.inj (Prod.mk.inj hqval).1

/-- For every template and every state number there is exactly one
sequence of pieces that the template reads as. -/
theorem evaluate_pieces (N : Int) (src : Str) :
    ∃! ps, ReadsAs N src ps :=
  ⟨codePieces N src, readsAs_codePieces N src,
    fun _ hq => hq.unique (readsAs_codePieces N src)⟩

end Appserver
