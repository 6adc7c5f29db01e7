import Mathlib.Data.List.Infix

/-!
# Streams of self-delimiting texts

A message is sent as a text, and the texts of several messages one after another, with nothing
between them. If no text begins with the text of another message, the receiver can tell where each
one ends: a stream that is taken apart as far as possible is taken apart in one way only
(`Spelt.unique`).
-/

namespace Framing

variable {α β : Type*} {text : β → List α → Prop}

/-- No text begins with the text of another message, and a text has one message. -/
def SelfDelimiting (text : β → List α → Prop) : Prop :=
  ∀ b b' w w', text b w → text b' w' → w <+: w' → b = b' ∧ w = w'

/-- The stream is texts of the messages, one after another, with `rest` behind them. -/
inductive Spelt (text : β → List α → Prop) : List β → List α → List α → Prop
  | nil (rest : List α) : Spelt text [] rest rest
  | cons {b : β} {bs : List β} {w stream rest : List α} (hb : text b w)
      (hbs : Spelt text bs stream rest) : Spelt text (b :: bs) (w ++ stream) rest

/-- **A stream that has partly arrived.** It is the encodings of the first messages and a proper
beginning of the next. -/
theorem cut_encoded (encode : β → List α) {bs : List β} {stream : List α}
    (h : stream <+: bs.flatMap encode) :
    ∃ first others rest, bs = first ++ others ∧ stream = first.flatMap encode ++ rest ∧
      (rest = [] ∨ ∃ b ∈ others.head?, rest <+: encode b ∧ rest ≠ encode b) := by
  induction bs generalizing stream with
  | nil => exact ⟨[], [], stream, rfl, rfl, .inl (List.prefix_nil.mp h)⟩
  | cons b bs ih =>
    rw [List.flatMap_cons] at h
    by_cases hwhole : encode b <+: stream
    · obtain ⟨more, rfl⟩ := hwhole
      obtain ⟨first, others, rest, rfl, rfl, hrest⟩ := ih ((List.prefix_append_right_inj _).mp h)
      exact ⟨b :: first, others, rest, rfl, by simp, hrest⟩
    · rcases List.prefix_or_prefix_of_prefix h (List.prefix_append _ _) with hle | hle
      · refine ⟨[], b :: bs, stream, rfl, rfl, .inr ⟨b, rfl, hle, ?_⟩⟩
        rintro rfl
        exact hwhole (List.prefix_refl _)
      · exact absurd hle hwhole

namespace Spelt

variable {b : β} {bs bs' : List β} {w stream rest rest' : List α}

/-- The next text is taken off the rest. -/
theorem snoc (h : Spelt text bs stream (w ++ rest)) (hb : text b w) :
    Spelt text (bs ++ [b]) stream rest := by
  generalize hr : w ++ rest = r at h
  induction h with
  | nil r =>
    subst hr
    exact .cons hb (.nil rest)
  | cons hc _ ih => exact .cons hc (ih hr)

/-- More arrives behind the rest. -/
theorem extend (h : Spelt text bs stream rest) (more : List α) :
    Spelt text bs (stream ++ more) (rest ++ more) := by
  induction h with
  | nil rest => exact .nil _
  | cons hb _ ih =>
    rw [List.append_assoc]
    exact .cons hb ih

/-- Encoded messages. -/
theorem of_encode {encode : β → List α} (hbs : ∀ b ∈ bs, text b (encode b)) (rest : List α) :
    Spelt text bs (bs.flatMap encode ++ rest) rest := by
  induction bs with
  | nil => exact .nil rest
  | cons b bs ih =>
    rw [List.flatMap_cons, List.append_assoc]
    exact .cons (hbs b List.mem_cons_self) (ih fun c hc => hbs c (List.mem_cons_of_mem b hc))

/-- **Unique reading.** If no further text can be taken off, the messages and the rest are determined
by the stream. -/
theorem unique (hself : SelfDelimiting text) (h : Spelt text bs stream rest)
    (hrest : ∀ b w, text b w → ¬ w <+: rest) (h' : Spelt text bs' stream rest')
    (hrest' : ∀ b w, text b w → ¬ w <+: rest') : bs = bs' ∧ rest = rest' := by
  induction h generalizing bs' with
  | nil rest =>
    cases h' with
    | nil => exact ⟨rfl, rfl⟩
    | cons hb' => exact absurd (List.prefix_append _ _) (hrest _ _ hb')
  | @cons b bs w stream rest hb hbs ih =>
    generalize hstream : w ++ stream = whole at h'
    cases h' with
    | nil =>
      subst hstream
      exact absurd (List.prefix_append w stream) (hrest' _ _ hb)
    | @cons b' bs' w' stream' _ hb' hbs' =>
      have hsame : b = b' ∧ w = w' := by
        rcases List.prefix_or_prefix_of_prefix ⟨stream, hstream⟩ (List.prefix_append w' stream')
          with hle | hle
        · exact hself _ _ _ _ hb hb' hle
        · obtain ⟨rfl, rfl⟩ := hself _ _ _ _ hb' hb hle
          exact ⟨rfl, rfl⟩
      obtain ⟨rfl, rfl⟩ := hsame
      obtain rfl := List.append_cancel_left hstream
      obtain ⟨rfl, rfl⟩ := ih hrest hbs'
      exact ⟨rfl, rfl⟩

end Spelt

end Framing
