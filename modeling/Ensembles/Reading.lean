/-!
# Readings

What comes of reading a value from the start of a text: the value, the text that it was
read from, and the text after it. `Reading.Of` says that the two texts make up the whole
one; `Reading.Of.length_rest_lt` that reading something leaves a shorter text.
-/

namespace Ensembles

/-- A value read from the start of a text. -/
structure Reading (α : Type) where
  value : α
  /-- The text that the value was read from. -/
  source : List Char
  /-- The text after it. -/
  rest : List Char

namespace Reading

variable {α β γ : Type}

/-- The same reading with another value. -/
def map (f : α → β) (r : Reading α) : Reading β := ⟨f r.value, r.source, r.rest⟩

/-- The reading of the text `s` and what follows it. -/
def after (s : List Char) (r : Reading α) : Reading α := { r with source := s ++ r.source }

/-- The reading `r` and then the reading `t` of what `r` leaves. -/
def andThen (f : α → β → γ) (r : Reading α) (t : Reading β) : Reading γ :=
  ⟨f r.value t.value, r.source ++ t.source, t.rest⟩

/-- `r` is a reading of the start of `cs`. -/
def Of (cs : List Char) (r : Reading α) : Prop := r.source ++ r.rest = cs

theorem Of.map {cs : List Char} {r : Reading α} (h : Of cs r) (f : α → β) : Of cs (r.map f) := h

theorem Of.after {cs : List Char} {r : Reading α} (h : Of cs r) (s : List Char) :
    Of (s ++ cs) (r.after s) := by
  rw [Of, Reading.after, List.append_assoc, h]

theorem Of.andThen {cs : List Char} {r : Reading α} {t : Reading β} (hr : Of cs r)
    (ht : Of r.rest t) (f : α → β → γ) : Of cs (r.andThen f t) := by
  rw [Of, Reading.andThen, List.append_assoc, ht, hr]

theorem Of.length_rest_lt {cs : List Char} {r : Reading α} (h : Of cs r) (hs : r.source ≠ []) :
    r.rest.length < cs.length := by
  have := List.length_pos_iff.2 hs
  rw [← h, List.length_append]
  omega

end Reading

end Ensembles
