import ConstrainedDecoding.Proofs.PatternDescent
import ConstrainedDecoding.Proofs.TagLanguage

/-!
# Which tags can be produced

The watcher takes the first trigger that ends for the beginning of a tag. So a tag is told at the start
of a text if no trigger lies inside the trigger that tells it, and else it is told nowhere.
-/
namespace ConstrainedDecoding.TagDescription

open Tag (Region Shortest)

variable {d : TagDescription} {tag : Tag} {s x : List Char}

/-- No trigger ends inside the trigger that a tag is told by. -/
theorem ToldBy.quiet_dropLast (htriggers : ∀ t ∈ d.triggers, t ≠ "") (h : d.ToldBy x tag s) :
    d.Quiet s.dropLast := by
  intro t ht hinfix
  obtain ⟨y, hty, hys⟩ := List.infix_iff_suffix_prefix.1 hinfix
  have hbegins : x ++ y <+: x ++ tag.opening.toList :=
    (List.prefix_append_right_inj x).2 (hys.trans ((List.dropLast_prefix s).trans h.shortest.begins))
  have hle := h.first _ hbegins ⟨t, ht, hty.trans (List.suffix_append x y)⟩
  have hlt := hys.length_le
  have hpos := List.length_pos_iff.2 (h.ne_nil htriggers)
  simp only [List.length_append, List.length_dropLast] at hle hlt
  omega

/-- A tag is told at the start of a text if no trigger ends inside the one that tells it. -/
theorem toldBy_nil (hs : Shortest (d.triggers.map String.toList) tag.opening.toList s)
    (hquiet : d.Quiet s.dropLast) : d.ToldBy [] tag s where
  shortest := hs
  first y hy := by
    rintro ⟨t, ht, hty⟩
    by_contra hlt
    have hys : y <+: s := List.prefix_of_prefix_length_le hy hs.begins (by simpa using (not_le.1 hlt).le)
    have hyd : y <+: s.dropLast :=
      List.prefix_of_prefix_length_le hys (List.dropLast_prefix s) (by simp at hlt ⊢; omega)
    exact hquiet t ht (hty.isInfix.trans hyd.isInfix)
  longest t _ hsuffix := hsuffix.length_le

/-- Each region is told after some free text. -/
theorem Splits.exists_toldBy {first : List Char} {regions : List Region} (h : d.Splits first regions)
    {r : Region} (hr : r ∈ regions) : ∃ x s, d.ToldBy x r.tag s := by
  induction regions generalizing first with
  | nil => cases hr
  | cons r' rest ih =>
    obtain ⟨-, -, ⟨s, htold⟩, hrest⟩ := splits_cons.1 h
    rcases List.mem_cons.1 hr with rfl | hr
    · exact ⟨first, s, htold⟩
    · exact ih hrest hr

/-- A tag whose trigger has no other trigger inside is produced in full, with no text around it: its
beginning, any contents that its grammar describes, its end. A tag whose trigger has one inside is
part of no text. -/
theorem produces_tag_or_never {text : String} {g contents : Grammar} (hparse : parse text = .ok d)
    (h : d.grammar = .ok g) (htag : tag ∈ d.tags) (hcontents : tag.content.grammar = .ok contents)
    (hs : Shortest (d.triggers.map String.toList) tag.opening.toList s) :
    (d.Quiet s.dropLast → ∀ c ∈ contents.language,
      Utf8.ofString tag.opening ++ c ++ Utf8.ofString tag.closing ∈ g.language) ∧
    (¬ d.Quiet s.dropLast → ∀ first regions, d.Splits first regions →
      ∀ r ∈ regions, r.tag.opening ≠ tag.opening) := by
  have htriggers := ne_empty_of_parse hparse
  constructor
  · intro hquiet c hc
    obtain ⟨inner, rfl⟩ := (Tag.Content.printable hcontents).language_le_texts hc
    let r : Region := ⟨tag, inner, []⟩
    have hsplits : d.Splits [] [r] := splits_cons.2 ⟨quiet_nil htriggers, ⟨htag, contents, hcontents, hc⟩,
      ⟨s, toldBy_nil hs hquiet⟩, splits_nil.2 (quiet_nil htriggers)⟩
    refine ((grammar_spec htriggers).2 g h _).2 ⟨[], [r], hsplits, ⟨by simp, by simp [r]⟩, ?_⟩
    simp [r, Region.text, Utf8.ofString]
  · intro hloud first regions hsplits r hr heq
    obtain ⟨x, s', htold⟩ := hsplits.exists_toldBy hr
    obtain rfl : s = s' := hs.unique (heq ▸ htold.shortest)
    exact hloud (htold.quiet_dropLast htriggers)

/-! ## Two triggers and one tag -/

/-- Two triggers and one tag, whose contents are `x`. -/
def twoTriggers (first second opening : String) : TagDescription :=
  ⟨[first, second], [⟨opening, .pattern "x", "!"⟩], false, false⟩

/-- A trigger that begins another one, and a tag that begins with both. -/
def longerTriggerText : String :=
  "\x7b\"triggers\":[\"<f=\",\"<f\"],\"tags\":[\x7b\"begin\":\"<f=a>\",\"regex\":\"x\",\"end\":\"!\"\x7d]\x7d"

/-- A trigger inside another one, and a tag that begins with the outer one. -/
def nestedTriggerText : String :=
  "\x7b\"triggers\":[\"<a>\",\"a\"],\"tags\":[\x7b\"begin\":\"<a>\",\"regex\":\"x\",\"end\":\"!\"\x7d]\x7d"

private theorem exists_twoTriggers (first second opening : String) (hfirst : first ≠ "")
    (hsecond : second ≠ "") : ∃ g contents, (twoTriggers first second opening).grammar = .ok g ∧
      Grammar.ofPattern "x" = .ok contents ∧ Utf8.ofString "x" ∈ contents.language := by
  have hpattern : Regex.Pattern.parse "x" = .ok (.alternation [.sequence [.char 'x']]) := by cbv
  obtain ⟨text, htext⟩ : ∃ text, Regex.ebnfText "x" = .ok text := by
    rw [Regex.ebnfText, hpattern]
    exact ⟨_, rfl⟩
  obtain ⟨p, -, contents, hp, -, -, -, hcontents, hlanguage⟩ := Regex.exists_parse_ebnfText htext
  obtain rfl := Except.ok.inj (hpattern.symm.trans hp)
  have hcontents := Grammar.ofPattern_eq_ok.2 ⟨_, htext, hcontents⟩
  obtain ⟨g, hg⟩ := (grammar_spec (d := twoTriggers first second opening)
    (by simp [twoTriggers, hfirst, hsecond])).1 fun tag htag => by
      obtain rfl := List.mem_singleton.1 htag
      exact ⟨contents, hcontents⟩
  refine ⟨g, contents, hg, hcontents, ?_⟩
  rw [hlanguage]
  refine Utf8.encode_mem_encoded.2 ?_
  simp only [Regex.Pattern.language, Regex.Pattern.choiceLanguage, Regex.Pattern.sequenceLanguage, mul_one,
    add_zero]
  rfl

/-- A tag that begins with both triggers is told by the shorter one. -/
theorem produces_longerTrigger : ∃ g contents,
    parse longerTriggerText = .ok (twoTriggers "<f=" "<f" "<f=a>") ∧
    (twoTriggers "<f=" "<f" "<f=a>").grammar = .ok g ∧ Grammar.ofPattern "x" = .ok contents ∧
    ∀ c ∈ contents.language, Utf8.ofString "<f=a>" ++ c ++ Utf8.ofString "!" ∈ g.language := by
  obtain ⟨g, contents, hg, hcontents, -⟩ :=
    exists_twoTriggers "<f=" "<f" "<f=a>" (by decide) (by decide)
  have hparse : parse longerTriggerText = .ok (twoTriggers "<f=" "<f" "<f=a>") := by
    cbv
  have hs : Shortest ["<f=".toList, "<f".toList] "<f=a>".toList "<f".toList :=
    ⟨by decide, by decide, by decide⟩
  have hquiet : (twoTriggers "<f=" "<f" "<f=a>").Quiet "<f".toList.dropLast := by
    unfold Quiet twoTriggers
    decide
  exact ⟨g, contents, hparse, hg, hcontents,
    (produces_tag_or_never hparse hg (List.mem_singleton_self _) hcontents hs).1 hquiet⟩

/-- A tag that is told by a trigger with another one inside is not produced. -/
theorem loses_innerTrigger : ∃ g contents,
    parse nestedTriggerText = .ok (twoTriggers "<a>" "a" "<a>") ∧
    (twoTriggers "<a>" "a" "<a>").grammar = .ok g ∧ Grammar.ofPattern "x" = .ok contents ∧
    Utf8.ofString "x" ∈ contents.language ∧
    Utf8.ofString "<a>" ++ Utf8.ofString "x" ++ Utf8.ofString "!" ∉ g.language := by
  obtain ⟨g, contents, hg, hcontents, hx⟩ :=
    exists_twoTriggers "<a>" "a" "<a>" (by decide) (by decide)
  have htriggers : ∀ t ∈ (twoTriggers "<a>" "a" "<a>").triggers, t ≠ "" := by
    unfold twoTriggers
    decide
  refine ⟨g, contents, by cbv, hg, hcontents, hx, fun hmem => ?_⟩
  obtain ⟨first, regions, hsplits, -, heq⟩ := ((grammar_spec htriggers).2 g hg _).1 hmem
  cases regions with
  | nil =>
    -- the whole text is free text, which has a trigger in it
    have hfirst : "<a>x!".toList = first := Utf8.encode_injective (heq.trans (by simp))
    exact splits_nil.1 hsplits "a" (by simp [twoTriggers]) (hfirst ▸ by decide)
  | cons r rest =>
    obtain ⟨-, ⟨htag, -⟩, ⟨s, htold⟩, -⟩ := splits_cons.1 hsplits
    rw [List.mem_singleton.1 htag] at htold
    have hs : Shortest ["<a>".toList, "a".toList] "<a>".toList "<a>".toList :=
      ⟨by decide, by decide, by decide⟩
    obtain rfl := hs.unique htold.shortest
    exact htold.quiet_dropLast htriggers "a" (by simp [twoTriggers]) (by decide)

end ConstrainedDecoding.TagDescription
