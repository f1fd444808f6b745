import Mathlib.Tactic.Basic

/-!
# A coder and a decoder in step

A coder and a decoder have a state each, and every block changes both, so a
block can only be read behind all blocks before it. `Coded` says that the
blocks of a channel are what the decoder, where it stands, reads one after the
other, and that behind the last of them it is in step with the coder. What the
coder accepts and the decoder does not ends the channel for good.
-/
namespace Stuff.CoderSync

variable {σ τ α β : Type}

/-- What is known of the two: in step, a block of a readable value is read as
that value and both are in step behind it, any other block makes the decoder
fail. A coder that fails stays in step. -/
structure InStep (write : σ → α → Option β × σ) (Reads : τ → β → α → τ → Prop)
    (Fails : τ → β → Prop) where
  Sync : σ → τ → Prop
  Readable : α → Prop
  failed : ∀ {s t a s'}, Sync s t → write s a = (none, s') → Sync s' t
  written : ∀ {s t a b s'}, Sync s t → write s a = (some b, s') → Readable a →
    ∃ t', Reads t b a t' ∧ Sync s' t'
  unreadable : ∀ {s t a b s'}, Sync s t → write s a = (some b, s') → ¬ Readable a → Fails t b

variable {write : σ → α → Option β × σ} {Reads : τ → β → α → τ → Prop} {Fails : τ → β → Prop}

inductive Coded (I : InStep write Reads Fails) : τ → List (β × α) → σ → Prop
  | nil {t : τ} {s : σ} (h : I.Sync s t) : Coded I t [] s
  | cons {t t' : τ} {b : β} {a : α} {l : List (β × α)} {s : σ} (ha : I.Readable a)
      (h : Reads t b a t') (hl : Coded I t' l s) : Coded I t ((b, a) :: l) s
  | stuck {t : τ} {b : β} {a : α} {l : List (β × α)} {s : σ} (ha : ¬ I.Readable a)
      (h : Fails t b) : Coded I t ((b, a) :: l) s

namespace Coded
variable {I : InStep write Reads Fails} {t : τ} {l : List (β × α)} {s s' : σ} {a : α} {b : β}

theorem failed (h : Coded I t l s) (hw : write s a = (none, s')) : Coded I t l s' := by
  induction h with
  | nil h => exact .nil (I.failed h hw)
  | cons ha h hl ih => exact .cons ha h (ih hw)
  | stuck ha h => exact .stuck ha h

/-- A new block joins the channel behind all others. -/
theorem written (h : Coded I t l s) (hw : write s a = (some b, s')) :
    Coded I t (l ++ [(b, a)]) s' := by
  induction h with
  | nil h =>
      by_cases ha : I.Readable a
      · obtain ⟨t', hread, hsync⟩ := I.written h hw ha
        exact .cons ha hread (.nil hsync)
      · exact .stuck ha (I.unreadable h hw ha)
  | cons ha h hl ih => exact .cons ha h (ih hw)
  | stuck ha h => exact .stuck ha h

end Coded
end Stuff.CoderSync
