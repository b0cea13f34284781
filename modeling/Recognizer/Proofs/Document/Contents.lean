import Recognizer.Document.Reader

/-!
# The contents of a document

What a document states, without the numbers of its lines and the causes of failures. Whether a line
states something does not depend on its number, so the contents are computed from the lines alone
(`contents?_lines`). A reader that gets past all lines has taken in all statements, in their order.

This is where both readers meet: they differ only in what they make of the statements.
-/

namespace Recognizer

open Text

section Success

variable {ε σ α β γ : Type}

/-- A result is what a success leaves. -/
theorem toOption_eq_some_iff {x : Except ε α} {a : α} : x.toOption = some a ↔ x = .ok a := by
  cases x <;> simp [Except.toOption]

/-- A sequence of two steps succeeds if both do. -/
theorem toOption_bind (x : Except ε α) (f : α → Except ε β) :
    (x >>= f).toOption = x.toOption.bind fun a => (f a).toOption := by
  cases x <;> rfl

/-- A loop whose steps apply what they decode applies all that is decoded. -/
theorem toOption_foldlM {step : σ → α → Except ε σ} {decode : α → Option β} {change : σ → β → σ}
    (hstep : ∀ s a, (step s a).toOption = (decode a).map (change s)) (l : List α) (s : σ) :
    (l.foldlM step s).toOption = (l.mapM decode).map fun bs => bs.foldl change s := by
  induction l generalizing s with
  | nil => rfl
  | cons a rest ih =>
    rw [List.foldlM_cons, toOption_bind, hstep, List.mapM_cons]
    cases decode a with
    | none => rfl
    | some b =>
      rw [Option.map_some, Option.bind_some, ih]
      cases rest.mapM decode <;> rfl

/-- Decoding in two steps may be done item by item or all at once. -/
theorem mapM_bind (f : α → Option β) (g : β → Option γ) (l : List α) :
    l.mapM (fun a => (f a).bind g) = (l.mapM f).bind fun bs => bs.mapM g := by
  induction l with
  | nil => rfl
  | cons a rest ih =>
    rw [List.mapM_cons, List.mapM_cons, ih]
    cases f a with
    | none => rfl
    | some b =>
      cases hrest : rest.mapM f with
      | none => cases hb : g b <;> simp [hb]
      | some bs => simp

/-- Decoding succeeds if all items decode. -/
theorem mapM_eq_some_map {f : α → Option β} {g : α → β} {l : List α}
    (h : ∀ a ∈ l, f a = some (g a)) : l.mapM f = some (l.map g) := by
  induction l with
  | nil => rfl
  | cons a rest ih =>
    obtain ⟨ha, hrest⟩ := List.forall_mem_cons.1 h
    rw [List.mapM_cons, ha, ih hrest]
    rfl

/-- Decoding fails if one item does not decode. -/
theorem mapM_eq_none {f : α → Option β} {l : List α} {a : α} (hmem : a ∈ l) (ha : f a = none) :
    l.mapM f = none := by
  induction l with
  | nil => cases hmem
  | cons b rest ih =>
    rw [List.mapM_cons]
    rcases List.mem_cons.1 hmem with rfl | hmem
    · rw [ha]
      rfl
    · rw [ih hmem]
      cases f b <;> rfl

/-- Decoding succeeds if every item can be decoded. -/
theorem exists_mapM_eq_some {f : α → Option β} {l : List α} (h : ∀ a ∈ l, ∃ b, f a = some b) :
    ∃ bs, l.mapM f = some bs := by
  induction l with
  | nil => exact ⟨[], rfl⟩
  | cons a rest ih =>
    obtain ⟨⟨b, hb⟩, hrest⟩ := List.forall_mem_cons.1 h
    obtain ⟨bs, hbs⟩ := ih hrest
    exact ⟨b :: bs, by rw [List.mapM_cons, hb, hbs]; rfl⟩

/-- What is decoded comes from the items, and every item is decoded. -/
theorem mem_of_mapM_eq_some {f : α → Option β} {l : List α} {bs : List β}
    (h : l.mapM f = some bs) :
    (∀ b, b ∈ bs ↔ ∃ a ∈ l, f a = some b) ∧ ∀ a ∈ l, ∃ b ∈ bs, f a = some b := by
  induction l generalizing bs with
  | nil =>
    cases h
    simp
  | cons a rest ih =>
    rw [List.mapM_cons] at h
    cases ha : f a with
    | none => simp [ha] at h
    | some first =>
      cases hrest : rest.mapM f with
      | none => simp [ha, hrest] at h
      | some others =>
        obtain ⟨hmem, hdecoded⟩ := ih hrest
        rw [ha, hrest] at h
        cases h
        constructor
        · intro b
          simp [hmem, ha, eq_comm]
        · rw [List.forall_mem_cons]
          refine ⟨⟨first, List.mem_cons_self, ha⟩, fun a' ha' => ?_⟩
          obtain ⟨b, hb, heq⟩ := hdecoded a' ha'
          exact ⟨b, List.mem_cons_of_mem _ hb, heq⟩

/-- The same items decode to the same results, in whatever order and however often they come. -/
theorem exists_mapM_of_mem_iff {f : α → Option β} {l more : List α} {bs : List β}
    (hsame : ∀ a, a ∈ more ↔ a ∈ l) (h : l.mapM f = some bs) :
    ∃ cs, more.mapM f = some cs ∧ ∀ b, b ∈ cs ↔ b ∈ bs := by
  obtain ⟨hmem, hdecoded⟩ := mem_of_mapM_eq_some h
  have hall : ∀ a ∈ more, ∃ b, f a = some b := by
    intro a ha
    obtain ⟨b, _, hb⟩ := hdecoded a ((hsame a).1 ha)
    exact ⟨b, hb⟩
  obtain ⟨cs, hcs⟩ := exists_mapM_eq_some hall
  refine ⟨cs, hcs, fun b => ?_⟩
  simp only [(mem_of_mapM_eq_some hcs).1, hmem, hsame]

end Success

/-- The name of the start and the statements of all further lines. -/
structure Contents where
  start : List Char
  statements : List Statement
deriving DecidableEq

namespace Contents

/-- What a line states in the finish section. -/
def finishOf? (line : List Char) : Option Statement :=
  match fields line with
  | [field] => some (.finish field)
  | _ => none

/-- What a line states in the transition section. -/
def transitionOf? (line : List Char) : Option Statement :=
  match cutAtSpace line with
  | (_, none) => none
  | (source, some rest) =>
    match cutAtSpace rest with
    | (target, none) => some (.transition ⟨source, none, target⟩)
    | (target, some [c]) => some (.transition ⟨source, some c, target⟩)
    | (_, some _) => none

/-- The lines before the first empty one. -/
def finishSection (lines : List (List Char)) : List (List Char) :=
  lines.takeWhile fun line => !line.isEmpty

/-- The lines after the first empty one that are not blank. -/
def transitionSection (lines : List (List Char)) : List (List Char) :=
  (lines.dropWhile fun line => !line.isEmpty).tail.filter fun line => !isBlank line

/-- What the lines after the start state, if none of them fails. -/
def statementsOf? : List (List Char) → Option (List Statement)
  | [] => some []
  | separator :: rest =>
    if separator.isEmpty then do
      let finishes ← (finishSection rest).mapM finishOf?
      let transitions ← (transitionSection rest).mapM transitionOf?
      return finishes ++ transitions
    else none

/-- The contents of a document with the given lines, if none of them fails. -/
def ofLines? : List (List Char) → Option Contents
  | [] => none
  | first :: rest =>
    match fields first with
    | [start] => (statementsOf? rest).map (Contents.mk start)
    | _ => none

end Contents

open Contents

namespace Outline

variable {line : NumberedLine} {numbered : List NumberedLine}

/-- The statements of the lines after the start, if none of them fails. -/
def statements? (body : List (Nat × Except TextError Statement)) : Option (List Statement) :=
  body.mapM fun entry => entry.2.toOption

/-- Whether a line states a finish does not depend on its number. -/
theorem toOption_readFinish : (readFinish line).toOption = finishOf? line.2 := by
  rw [readFinish, onlyField, finishOf?]
  rcases fields line.2 with _ | ⟨field, _ | ⟨next, more⟩⟩ <;> rfl

/-- Whether a line states a transition does not depend on its number. -/
theorem toOption_readTransition : (readTransition line).toOption = transitionOf? line.2 := by
  rw [readTransition, transitionOf?]
  rcases cutAtSpace line.2 with ⟨source, _ | rest⟩
  · rfl
  · dsimp only
    rcases cutAtSpace rest with ⟨target, _ | _ | ⟨c, _ | ⟨d, more⟩⟩⟩ <;> rfl

/-- A reader that ignores the numbers of lines finds the statements of the lines alone. -/
theorem statements?_map {read : NumberedLine → Except TextError Statement}
    {decode : List Char → Option Statement} (h : ∀ line, (read line).toOption = decode line.2)
    (numbered : List NumberedLine) :
    statements? (numbered.map fun line => (line.1, read line)) =
      (numbered.map Prod.snd).mapM decode := by
  have hread : (fun entry => entry.2.toOption) ∘ (fun line => (line.1, read line)) =
      decode ∘ Prod.snd := funext h
  rw [statements?, List.mapM_map, List.mapM_map, hread]

/-- Without their numbers, the lines of finishes are the finish section. -/
theorem map_finishLines :
    (finishLines numbered).map Prod.snd = finishSection (numbered.map Prod.snd) := by
  rw [finishSection, List.takeWhile_map]
  rfl

/-- Without their numbers, the lines of transitions are the transition section. -/
theorem map_transitionLines :
    (transitionLines numbered).map Prod.snd = transitionSection (numbered.map Prod.snd) := by
  rw [transitionSection, List.dropWhile_map, ← List.map_tail, List.filter_map]
  rfl

/-- The statements of numbered lines are those of the lines. -/
theorem statements?_readBody :
    statements? (readBody numbered) = statementsOf? (numbered.map Prod.snd) := by
  cases numbered with
  | nil => rfl
  | cons separator rest =>
    rw [readBody, List.map_cons, statementsOf?]
    by_cases h : separator.2.isEmpty
    · have hfinish := statements?_map (fun line => toOption_readFinish) (finishLines rest)
      have htransition := statements?_map (fun line => toOption_readTransition)
        (transitionLines rest)
      rw [map_finishLines] at hfinish
      rw [map_transitionLines] at htransition
      rw [if_pos h, if_pos h, ← hfinish, ← htransition]
      exact List.mapM_append
    · rw [if_neg h, if_neg h]
      rfl

/-- The contents of an outline, if none of its lines fails. -/
def contents? (outline : Outline) : Option Contents :=
  (statements? outline.body).map (Contents.mk outline.start)

/-- Without their numbers, the lines are those of the text. -/
theorem map_numberedLines {text : List Char} : (numberedLines text).map Prod.snd = lines text := by
  rw [numberedLines, List.map_map]
  exact List.zipIdx_map_fst 0 (lines text)

/-- The contents of a document are found from its lines. -/
theorem contents?_ofText {text : List Char} :
    (ofText text).toOption.bind contents? = Contents.ofLines? (lines text) := by
  rw [ofText, ← map_numberedLines]
  cases numberedLines text with
  | nil => rfl
  | cons first rest =>
    rw [List.map_cons, Contents.ofLines?]
    dsimp only
    by_cases hblank : isBlank first.2
    · rw [if_pos hblank, fields_eq_nil_of_isBlank hblank]
      rfl
    · rw [if_neg hblank, onlyField, ← statements?_readBody]
      rcases fields first.2 with _ | ⟨field, _ | ⟨next, more⟩⟩ <;> rfl

end Outline

end Recognizer
