import DesignTokens.Rule.Monotonic
import DesignTokens.Proofs.Text.Blank
import DesignTokens.Proofs.Text.Pieces
import Mathlib.Tactic.Tauto

/-!
# Two readers of a lightness

A colour is read whole, and the lightness of an `oklch` literal is also read alone.

* `OklchText s gap args` : the text writes `oklch`, some blanks, and arguments in parentheses;
  `parse?_of_oklchText` and `oklchLightness?_eq_some` say what either reader makes of it;
* `args.lightness?`, `args.RestReadable` : the part of the arguments that both readers look at, and the one
  that only the reader of colours does;
* `lightness_readers_agree_iff` : so the readers agree on a text unless blanks stand before its parenthesis or
  the rest of its arguments is not readable, and what an order by lightness compares;
* `lightness_readers_differ` : both of these happen.
-/

namespace DesignTokens.Color

variable {s : String} {gap gap' : List Char} {args args' : Arguments} {color : Color} {l c h a : Float}

/-! ## What the arguments write -/

namespace Arguments

def lightness? (args : Arguments) : Option Float := args.channels.head?.bind Color.lightness?

/-- There are three channels, of which the others are a chroma and a hue, and an alpha is readable if it
is given. -/
def RestReadable (args : Arguments) : Prop := ∃ x y z, args.channels = [x, y, z] ∧
  (chroma? y).isSome ∧ (hue? z).isSome ∧ (alphaChannel? args.alpha).isSome

def Writes (args : Arguments) (l c h a : Float) : Prop := ∃ x y z, args.channels = [x, y, z] ∧
  Color.lightness? x = some l ∧ chroma? y = some c ∧ hue? z = some h ∧ alphaChannel? args.alpha = some a

theorem Writes.lightness? (hw : args.Writes l c h a) : args.lightness? = some l := by
  obtain ⟨x, y, z, hchannels, hx, -⟩ := hw
  rw [Arguments.lightness?, hchannels]
  exact hx

theorem Writes.restReadable (hw : args.Writes l c h a) : args.RestReadable := by
  obtain ⟨x, y, z, hchannels, -, hy, hz, ha⟩ := hw
  exact ⟨x, y, z, hchannels, by rw [hy]; rfl, by rw [hz]; rfl, by rw [ha]; rfl⟩

theorem RestReadable.exists_writes (hrest : args.RestReadable) (hl : args.lightness? = some l) :
    ∃ c h a, args.Writes l c h a := by
  obtain ⟨x, y, z, hchannels, hy, hz, ha⟩ := hrest
  obtain ⟨c, hc⟩ := Option.isSome_iff_exists.1 hy
  obtain ⟨h, hh⟩ := Option.isSome_iff_exists.1 hz
  obtain ⟨a, ha⟩ := Option.isSome_iff_exists.1 ha
  rw [Arguments.lightness?, hchannels] at hl
  exact ⟨c, h, a, x, y, z, hchannels, hl, hc, hh, ha⟩

end Arguments

theorem ofFunction?_oklch : ofFunction? "oklch".toList args = some color ↔
    ∃ l c h a, args.Writes l c h a ∧ color = ofOklch l c h a := by
  unfold ofFunction? Arguments.Writes
  constructor
  · intro hcolor
    split at hcolor
    · rename_i x y z hchannels
      obtain ⟨a, ha, hcolor⟩ := Option.bind_eq_some_iff.1 hcolor
      obtain ⟨l, hl, hcolor⟩ := Option.bind_eq_some_iff.1 hcolor
      obtain ⟨c, hc, hcolor⟩ := Option.bind_eq_some_iff.1 hcolor
      obtain ⟨h, hh, hcolor⟩ := Option.bind_eq_some_iff.1 hcolor
      exact ⟨l, c, h, a, ⟨x, y, z, hchannels, hl, hc, hh, ha⟩, (Option.some.inj hcolor).symm⟩
    · cases hcolor
  · rintro ⟨l, c, h, a, ⟨x, y, z, hchannels, hl, hc, hh, ha⟩, rfl⟩
    simp [hchannels, hl, hc, hh, ha]

/-! ## The two readers -/

/-- Apart from its case and the blanks around it, the text is `oklch`, a gap of blanks, and arguments in
parentheses. -/
def OklchText (s : String) (gap : List Char) (args : Arguments) : Prop :=
  (∀ c ∈ gap, Text.isBlank c = true) ∧ ∃ body, Arguments.ofChars? body = some args ∧
    normalize s = "oklch".toList ++ (gap ++ '(' :: (body ++ [')']))

/-- The parenthesis that the reader of colours cuts at is the one behind the gap. -/
theorem cutAt_oklch (hgap : ∀ c ∈ gap, Text.isBlank c = true) (rest : List Char) :
    Text.cutAt (· == '(') ("oklch".toList ++ (gap ++ '(' :: rest)) = some ("oklch".toList ++ gap, rest) := by
  refine Text.cutAt_eq_some.2 ⟨'(', by rw [List.append_assoc], rfl, fun c hc => ?_⟩
  rw [beq_eq_false_iff_ne]
  rintro rfl
  rcases List.mem_append.1 hc with hc | hc
  · exact absurd hc (by decide)
  · exact absurd (hgap _ hc) (by decide)

theorem OklchText.unique (ht : OklchText s gap args) (ht' : OklchText s gap' args') :
    gap = gap' ∧ args = args' := by
  obtain ⟨hgap, body, hargs, hs⟩ := ht
  obtain ⟨hgap', body', hargs', hs'⟩ := ht'
  have hcut := cutAt_oklch hgap (body ++ [')'])
  rw [← hs, hs', cutAt_oklch hgap', Option.some.injEq, Prod.mk.injEq] at hcut
  obtain ⟨hname, hbody⟩ := hcut
  obtain rfl : body' = body := List.append_cancel_right hbody
  rw [hargs] at hargs'
  exact ⟨(List.append_cancel_left hname).symm, Option.some.inj hargs'⟩

theorem trim_oklch (hgap : ∀ c ∈ gap, Text.isBlank c = true) :
    Text.trim ("oklch".toList ++ gap) = "oklch".toList := by
  have hends : (∀ c ∈ "oklch".toList.head?, Text.isBlank c = false) ∧
      ∀ c ∈ "oklch".toList.getLast?, Text.isBlank c = false := by simp [Text.isBlank]
  have hnone : ∀ c ∈ ([] : List Char), Text.isBlank c = true := by simp
  exact Text.trim_append hnone hgap hends.1 hends.2

/-- What is neither a word nor digits is a function with its arguments. -/
theorem ofChars?_of_ne {cs : List Char} (hword : cs ≠ "transparent".toList) (hdigits : ∀ ds, cs ≠ '#' :: ds) :
    ofChars? cs = (Text.cutAt (· == '(') cs).bind fun (name, rest) => (Text.stripEnd? [')'] rest).bind
      fun body => (Arguments.ofChars? body).bind (ofFunction? (Text.trim name)) := by
  unfold ofChars?
  rw [if_neg hword]
  split
  · exact absurd rfl (hdigits _)
  · rfl

theorem parse?_of_oklchText (ht : OklchText s gap args) : parse? s = ofFunction? "oklch".toList args := by
  obtain ⟨hgap, body, hargs, hs⟩ := ht
  have hhead : (normalize s).head? = some 'o' := by rw [hs]; rfl
  have hword : normalize s ≠ "transparent".toList := fun heq => by
    rw [heq] at hhead
    exact absurd hhead (by decide)
  have hdigits (ds : List Char) : normalize s ≠ '#' :: ds := fun heq => by
    rw [heq] at hhead
    exact absurd hhead (by simp)
  have hbody : Text.stripEnd? [')'] (body ++ [')']) = some body := Text.stripEnd?_eq_some.2 rfl
  rw [parse?, ofChars?_of_ne hword hdigits, hs, cutAt_oklch hgap]
  simp only [Option.bind_some, hbody, hargs, trim_oklch hgap]

theorem isSome_parse?_iff (ht : OklchText s gap args) :
    (parse? s).isSome ↔ args.lightness?.isSome ∧ args.RestReadable := by
  rw [parse?_of_oklchText ht, Option.isSome_iff_exists]
  simp only [ofFunction?_oklch]
  constructor
  · rintro ⟨_, l, c, h, a, hw, -⟩
    exact ⟨by rw [hw.lightness?]; rfl, hw.restReadable⟩
  · rintro ⟨hl, hrest⟩
    obtain ⟨l, hl⟩ := Option.isSome_iff_exists.1 hl
    obtain ⟨c, h, a, hw⟩ := hrest.exists_writes hl
    exact ⟨_, l, c, h, a, hw, rfl⟩

theorem oklchLightness?_eq_some :
    oklchLightness? s = some l ↔ ∃ args, OklchText s [] args ∧ args.lightness? = some l := by
  have hopen (rest : List Char) : "oklch(".toList ++ rest = "oklch".toList ++ '(' :: rest := by simp
  unfold oklchLightness? OklchText Arguments.lightness?
  simp only [Option.bind_eq_bind, Option.bind_eq_some_iff, Text.stripStart?_eq_some, Text.stripEnd?_eq_some,
    hopen]
  constructor
  · rintro ⟨_, hs, body, rfl, args, hargs, x, hx, hl⟩
    exact ⟨args, ⟨by simp, body, hargs, hs⟩, x, hx, hl⟩
  · rintro ⟨args, ⟨-, body, hargs, hs⟩, x, hx, hl⟩
    exact ⟨body ++ [')'], hs, body, rfl, args, hargs, x, hx, hl⟩

theorem oklchLightness?_of_oklchText (ht : OklchText s gap args) :
    oklchLightness? s = if gap = [] then args.lightness? else none := by
  refine Option.ext fun l => ?_
  rw [oklchLightness?_eq_some]
  constructor
  · rintro ⟨args', ht', hl⟩
    obtain ⟨rfl, rfl⟩ := ht.unique ht'
    rwa [if_pos rfl]
  · intro hl
    split at hl
    · subst gap
      exact ⟨args, ht, hl⟩
    · cases hl

theorem oklchLightness?_eq_none (hs : ∀ gap args, ¬ OklchText s gap args) : oklchLightness? s = none := by
  rw [Option.eq_none_iff_forall_ne_some]
  intro l hl
  obtain ⟨args, ht, -⟩ := oklchLightness?_eq_some.1 hl
  exact hs [] args ht

/-! ## Where they agree -/

/-- The reader of colours takes the text as an `oklch` literal. -/
def AcceptedAsOklch (s : String) : Prop := ∃ gap args, OklchText s gap args ∧ (parse? s).isSome

theorem isSome_oklchLightness?_iff (ht : OklchText s gap args) :
    (oklchLightness? s).isSome ↔ gap = [] ∧ args.lightness?.isSome := by
  rw [oklchLightness?_of_oklchText ht]
  split <;> simp [*]

theorem acceptedAsOklch_iff (ht : OklchText s gap args) :
    AcceptedAsOklch s ↔ args.lightness?.isSome ∧ args.RestReadable := by
  rw [← isSome_parse?_iff ht]
  exact ⟨fun ⟨_, _, _, hsome⟩ => hsome, fun hsome => ⟨gap, args, ht, hsome⟩⟩

/-- On a text that is no `oklch` literal in form neither finds a lightness. -/
theorem agree_of_not_oklchText (hs : ∀ gap args, ¬ OklchText s gap args) :
    (oklchLightness? s).isSome ↔ AcceptedAsOklch s := by
  rw [oklchLightness?_eq_none hs]
  exact iff_of_false Bool.false_ne_true fun ⟨gap, args, ht, _⟩ => hs gap args ht

theorem agree_iff_of_oklchText (ht : OklchText s gap args) :
    ((oklchLightness? s).isSome ↔ AcceptedAsOklch s) ↔
      (args.lightness?.isSome → (gap = [] ↔ args.RestReadable)) := by
  rw [isSome_oklchLightness?_iff ht, acceptedAsOklch_iff ht]
  tauto

theorem parse?_of_writes (ht : OklchText s gap args) (hw : args.Writes l c h a) :
    parse? s = some (ofOklch l c h a) := by
  rw [parse?_of_oklchText ht, ofFunction?_oklch]
  exact ⟨l, c, h, a, hw, rfl⟩

theorem lightnessOf?_of_writes (ht : OklchText s gap args) (hw : args.Writes l c h a) :
    Measure.lightnessOf? s = some (if gap = [] then l else (ofOklch l c h a).luminance) := by
  rw [Measure.lightnessOf?, parse?_of_writes ht hw, oklchLightness?_of_oklchText ht, hw.lightness?]
  split <;> rfl

theorem lightnessOf?_of_not_oklchText (hcolor : parse? s = some color)
    (hs : ∀ gap args, ¬ OklchText s gap args) : Measure.lightnessOf? s = some color.luminance := by
  rw [Measure.lightnessOf?, hcolor, oklchLightness?_eq_none hs]
  rfl

/-- What is compared although it is no colour is the lightness of arguments whose rest is not readable. -/
theorem exists_of_lightnessOf? (hnone : parse? s = none) (hl : Measure.lightnessOf? s = some l) :
    ∃ args, OklchText s [] args ∧ args.lightness? = some l ∧ ¬ args.RestReadable := by
  rw [Measure.lightnessOf?, hnone, Option.map_none, Option.or_none] at hl
  obtain ⟨args, ht, hl⟩ := oklchLightness?_eq_some.1 hl
  refine ⟨args, ht, hl, fun hrest => ?_⟩
  have hsome := (isSome_parse?_iff ht).2 ⟨by rw [hl]; rfl, hrest⟩
  rw [hnone] at hsome
  cases hsome

/-- The readers agree on a text just if, should its lightness be readable, there are no blanks before the
parenthesis exactly when the rest of the arguments is readable. -/
theorem lightness_readers_agree_iff (s : String) :
    (((oklchLightness? s).isSome ↔ AcceptedAsOklch s) ↔
      ∀ gap args, OklchText s gap args → args.lightness?.isSome → (gap = [] ↔ args.RestReadable)) ∧
    (∀ gap args l c h a, OklchText s gap args → args.Writes l c h a → parse? s = some (ofOklch l c h a) ∧
      Measure.lightnessOf? s = some (if gap = [] then l else (ofOklch l c h a).luminance)) ∧
    (∀ color, parse? s = some color → ¬ AcceptedAsOklch s →
      Measure.lightnessOf? s = some color.luminance) ∧
    ∀ l, parse? s = none → Measure.lightnessOf? s = some l →
      ∃ args, OklchText s [] args ∧ args.lightness? = some l ∧ ¬ args.RestReadable := by
  refine ⟨?_, fun gap args l c h a ht hw => ⟨parse?_of_writes ht hw, lightnessOf?_of_writes ht hw⟩,
    fun color hcolor hs => ?_, fun l hnone hl => exists_of_lightnessOf? hnone hl⟩
  · constructor
    · exact fun hagree gap args ht => (agree_iff_of_oklchText ht).1 hagree
    · intro hall
      by_cases hs : ∃ gap args, OklchText s gap args
      · obtain ⟨gap, args, ht⟩ := hs
        exact (agree_iff_of_oklchText ht).2 (hall gap args ht)
      · exact agree_of_not_oklchText fun gap args ht => hs ⟨gap, args, ht⟩
  · exact lightnessOf?_of_not_oklchText hcolor fun gap args ht => hs ⟨gap, args, ht, by rw [hcolor]; rfl⟩

/-- A lightness alone is read from what is no colour, and blanks hide the one of a colour. -/
theorem lightness_readers_differ :
    (parse? "oklch(0.5)" = none ∧ oklchLightness? "oklch(0.5)" = some 0.5 ∧
      Measure.lightnessOf? "oklch(0.5)" = some 0.5) ∧
    (parse? "oklch (0.5 0 0)").isSome ∧ oklchLightness? "oklch (0.5 0 0)" = none := by
  decide +kernel

end DesignTokens.Color
