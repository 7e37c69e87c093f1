import ConstrainedDecoding.Proofs.Meaning
import ConstrainedDecoding.Proofs.Telling
import ConstrainedDecoding.Proofs.TextLanguages

/-!
# Texts with tags

The grammar of a tag description describes free text and tagged regions in turn: no free text has a
trigger in it, and each region is a tag that the watcher tells where free text ends.
-/
namespace ConstrainedDecoding

open Draft (Contract Known Adds Fills)

variable {n : Nat} {known : Known}

namespace Tag

/-! ## What triggers lead to -/

/-- What follows the trigger of a tag: the rest of its beginning, its contents, its end. -/
def afterTrigger (trigger : String) (tag : Tag) (contents : Grammar) : Language UInt8 :=
  {Utf8.encode (tag.opening.toList.drop trigger.length)} * contents.language *
    {Utf8.ofString tag.closing}

theorem mem_afterTrigger {trigger : String} {tag : Tag} {contents : Grammar} {w : Bytes} :
    w ∈ tag.afterTrigger trigger contents ↔ ∃ c ∈ contents.language,
      w = Utf8.encode (tag.opening.toList.drop trigger.length) ++ c ++ Utf8.ofString tag.closing := by
  rw [afterTrigger, mul_assoc, Language.mem_singleton_mul]
  constructor
  · rintro ⟨_, ⟨c, hc, _, rfl, rfl⟩, rfl⟩
    exact ⟨c, hc, by simp⟩
  · rintro ⟨c, hc, rfl⟩
    exact ⟨_, ⟨c, hc, _, rfl, rfl⟩, by simp⟩

/-- A beginning is its trigger and the rest. -/
theorem encode_opening {trigger : String} {tag : Tag} (h : trigger.toList <+: tag.opening.toList) :
    Utf8.encode trigger.toList ++ Utf8.encode (tag.opening.toList.drop trigger.length) =
      Utf8.encode tag.opening.toList := by
  rw [← Utf8.encode_append, ← String.length_toList, List.prefix_iff_eq_append.1 h]

theorem Content.printable {content : Content} {g : Grammar} (h : content.grammar = .ok g) :
    g.Printable := by
  cases content with
  | schema v => exact Grammar.printable_of_ofSchema h
  | ebnf text => exact Grammar.printable_of_ofEbnf h
  | pattern text => exact Grammar.printable_of_ofPattern h

theorem adds_drawRest (trigger : String) (tag : Tag) {contents : Grammar} (hcontents : contents.Valid)
    (known : Known) : Adds (.free n) known (tag.drawRest trigger contents) (fun e => [.node e])
      fun e g => (g.tree e).language g.reading = tag.afterTrigger trigger contents := by
  have closing (parts : List ExprId) (known : Known) (hparts : ∀ e ∈ parts, .node e ∈ known) :
      Adds (.free n) known (if tag.closing.isEmpty then Draft.add (.sequence (parts ++ []))
        else do
          let e ← Draft.addLeaf (.literal (Utf8.ofString tag.closing))
          Draft.add (.sequence (parts ++ [e]))) (fun e => [.node e]) fun e g =>
        (g.tree e).language g.reading =
          Tree.sequenceLanguage g.reading (parts.map g.tree) * {Utf8.ofString tag.closing} := by
    split
    · rename_i hempty
      refine (Adds.sequence (by simpa using hparts)).imp fun e g _ he => ?_
      have : ({Utf8.ofString tag.closing} : Language UInt8) = 1 := by
        rw [show tag.closing = "" by simpa using hempty]
        rfl
      simp [he, this]
    · refine (Adds.plainLeaf rfl).bind fun e => (Adds.sequence ?_).imp fun s g _ hs he => ?_
      · simp +contextual [or_imp, hparts]
      · simp [hs, he, Leaf.language]
  have body (opening : List ExprId) (root : RuleId) (known : Known)
      (hopening : ∀ e ∈ opening, .node e ∈ known) (hroot : .rule root ∈ known) : Adds (.free n) known (do
        let body ← Draft.addLeaf (.reference root)
        if tag.closing.isEmpty then Draft.add (.sequence (opening ++ [body] ++ []))
        else do
          let e ← Draft.addLeaf (.literal (Utf8.ofString tag.closing))
          Draft.add (.sequence (opening ++ [body] ++ [e]))) (fun e => [.node e]) fun e g =>
        (g.tree e).language g.reading = Tree.sequenceLanguage g.reading (opening.map g.tree) *
          g.reading root * {Utf8.ofString tag.closing} := by
    refine (Adds.reference (Or.inr hroot)).bind fun body => (closing (opening ++ [body]) _ ?_).imp
      fun e g _ he hbody => ?_
    · simp +contextual [or_imp, hopening]
    · simp [he, hbody, Leaf.language]
  unfold drawRest afterTrigger
  refine (Adds.embed hcontents).bind fun root => ?_
  dsimp only
  split
  · rename_i hempty
    simp only [pure_bind]
    refine (body [] root _ (by simp) (by simp)).imp fun e g _ he hroot => ?_
    obtain ⟨rules, -, rfl, hembeds⟩ := hroot
    have : ({Utf8.encode (tag.opening.toList.drop trigger.length)} : Language UInt8) = 1 := by
      rw [List.isEmpty_iff.1 hempty]
      rfl
    rw [he, hembeds.reading_eq hcontents hcontents.root_lt, this]
    simp [Grammar.language]
  · simp only [pure_bind]
    refine (Adds.plainLeaf rfl).bind fun first => (body [first] root _ (by simp) (by simp)).imp
      fun e g _ he hfirst hroot => ?_
    obtain ⟨rules, -, rfl, hembeds⟩ := hroot
    rw [he, hembeds.reading_eq hcontents hcontents.root_lt]
    simp [hfirst, Leaf.language, Grammar.language]

/-- The rule of a trigger describes what follows the trigger in the tags that it tells. -/
theorem adds_drawDispatch (trigger : String) {tags : List (Tag × Grammar)}
    (htags : ∀ x ∈ tags, x.2.Valid) (known : Known) :
    Adds (.free n) known (drawDispatch trigger tags) (fun o => o.toList.map .rule) fun o g =>
      ∀ w, w ∈ o.elim 0 g.reading ↔ ∃ x ∈ tags, w ∈ x.1.afterTrigger trigger x.2 := by
  let alternatives : StateM Draft ExprId := do
    Draft.add (.choice (← tags.mapM fun x => x.1.drawRest trigger x.2))
  have run : drawDispatch trigger tags = if tags.isEmpty then pure none else
      (do let r ← Draft.addFreshRule "tag_dispatch"; Draft.giveBody r (← alternatives); return r) >>=
        fun r => pure (some r) := by
    simp [drawDispatch, alternatives]
  rw [run]
  split
  · rename_i hempty
    refine Adds.pure (by simp) fun g _ _ w => ?_
    rw [List.isEmpty_iff.1 hempty]
    simp [Language.notMem_zero]
  · have drawn : Adds (.free n) known alternatives (fun e => [.node e]) fun e g =>
        ∀ w, w ∈ (g.tree e).language g.reading ↔ ∃ x ∈ tags, w ∈ x.1.afterTrigger trigger x.2 := by
      refine (Adds.mapM tags known fun x hx known' _ =>
        adds_drawRest trigger x.1 (htags x hx) known').bind fun es =>
          (Adds.choice (by simp +contextual)).imp fun e g _ he hes w => ?_
      have languages : (es.map g.tree).map (Tree.language g.reading) =
          tags.map fun x => x.1.afterTrigger trigger x.2 := by
        rw [List.map_map]
        exact map_eq_of_forall₂ hes
      have mem_map (w : Bytes) : (∃ t ∈ es.map g.tree, w ∈ t.language g.reading) ↔
          ∃ K ∈ (es.map g.tree).map (Tree.language g.reading), w ∈ K := by simp
      rw [he, Tree.language_choice, Tree.mem_choiceLanguage, mem_map, languages]
      simp
    refine (Adds.rule "tag_dispatch" drawn fun _ _ _ _ _ _ _ => trivial).bind fun r =>
      Adds.pure (by simp) fun g _ _ hr w => ?_
    obtain ⟨-, b, hb, hbody⟩ := hr
    rw [← hb, Option.elim_some, Grammar.reading_of_body hbody]

/-- A tagged region of a text, and the free text after it. -/
structure Region where
  tag : Tag
  contents : List Char
  after : List Char

/-- The text of a region and the free text after it. -/
def Region.text (r : Region) : List Char :=
  r.tag.opening.toList ++ r.contents ++ r.tag.closing.toList ++ r.after

end Tag

namespace TagDescription

open Tag (Triggers Region)

variable {d : TagDescription}

/-! ## Texts with tags -/

/-- No trigger occurs in a text. -/
def Quiet (d : TagDescription) (x : List Char) : Prop := ∀ t ∈ d.triggers, ¬ t.toList <:+: x

/-- A tag of the description can have the contents. -/
def Allows (d : TagDescription) (tag : Tag) (contents : List Char) : Prop :=
  tag ∈ d.tags ∧ ∃ g, tag.content.grammar = .ok g ∧ Utf8.encode contents ∈ g.language

/-- Free text, and tagged regions each of which is told where the free text before it ends. -/
structure Splits (d : TagDescription) (first : List Char) (regions : List Region) : Prop where
  quiet : ∀ x ∈ first :: regions.map Region.after, d.Quiet x
  allows : ∀ r ∈ regions, d.Allows r.tag r.contents
  told : ∀ x ∈ (first :: regions.map Region.after).zip regions, ∃ s, d.ToldBy x.1 x.2.tag s

theorem splits_nil {first : List Char} : d.Splits first [] ↔ d.Quiet first := by
  constructor
  · exact fun h => h.quiet first (by simp)
  · exact fun h => ⟨by simpa using h, by simp, by simp⟩

theorem splits_cons {first : List Char} {r : Region} {regions : List Region} :
    d.Splits first (r :: regions) ↔ d.Quiet first ∧ d.Allows r.tag r.contents ∧
      (∃ s, d.ToldBy first r.tag s) ∧ d.Splits r.after regions := by
  constructor
  · rintro ⟨quiet, allows, told⟩
    rw [List.map_cons, List.forall_mem_cons] at quiet
    rw [List.forall_mem_cons] at allows
    rw [List.map_cons, List.zip_cons_cons, List.forall_mem_cons] at told
    exact ⟨quiet.1, allows.1, told.1, quiet.2, allows.2, told.2⟩
  · rintro ⟨quiet, allows, told, rest⟩
    refine ⟨?_, List.forall_mem_cons.2 ⟨allows, rest.allows⟩, ?_⟩
    · rw [List.map_cons]
      exact List.forall_mem_cons.2 ⟨quiet, rest.quiet⟩
    · rw [List.map_cons, List.zip_cons_cons]
      exact List.forall_mem_cons.2 ⟨told, rest.told⟩

/-! ## Regions after free text -/

section

variable (htriggers : ∀ t ∈ d.triggers, t ≠ "")

include htriggers

theorem completed?_nil : (Triggers.ofStrings d.triggers).completed? [] = none :=
  Triggers.completed?_nil (Triggers.nil_notMem_ofStrings htriggers)

theorem ToldBy.ne_nil {x s : List Char} {tag : Tag} (h : d.ToldBy x tag s) : s ≠ [] := by
  obtain ⟨t, ht, rfl⟩ := List.mem_map.1 h.shortest.mem
  exact fun hnil => htriggers t ht (String.toList_eq_nil_iff.1 hnil)

theorem ToldBy.quiet {x s : List Char} {tag : Tag} (h : d.ToldBy x tag s) : d.Quiet x := by
  intro t ht hinfix
  obtain ⟨y, hty, hyx⟩ := List.infix_iff_suffix_prefix.1 hinfix
  have hle := h.first y (hyx.trans (List.prefix_append _ _)) ⟨t, ht, hty⟩
  have hlen := List.length_pos_iff.2 (h.ne_nil htriggers)
  have := hyx.length_le
  rw [List.length_append] at hle
  omega

theorem quiet_nil : d.Quiet [] := fun t ht hinfix =>
  htriggers t ht (String.toList_eq_nil_iff.1 (List.infix_nil.1 hinfix))

end

/-- What follows the triggers of a description in the tags that they tell. -/
def Dispatches (d : TagDescription) (D : Nat → Language UInt8) : Prop :=
  ∀ (k : Nat) (trigger : String), d.triggers[k]? = some trigger → ∀ w, w ∈ D k ↔
    ∃ tag ∈ d.tags, ∃ contents, tag.content.grammar = .ok contents ∧
      tag.tellingTrigger? d.triggers = some k ∧ w ∈ tag.afterTrigger trigger contents

theorem quiet_ofStrings {x : List Char} : (Triggers.ofStrings d.triggers).Quiet x ↔ d.Quiet x := by
  rw [Triggers.quiet_iff, Quiet]
  exact List.forall_mem_map

section

variable {D : Nat → Language UInt8} {A : Language UInt8} {mayEnd : Bool} {w : Bytes}
  (htriggers : ∀ t ∈ d.triggers, t ≠ "") (hD : d.Dispatches D)

include htriggers hD

/-- A text that goes on from the start is free text up to its end, or up to a tag. -/
theorem goesOn_iff_tag :
    (Triggers.ofStrings d.triggers).GoesOn mayEnd (fun k => D k * A) [] w ↔
      (mayEnd = true ∧ ∃ x, d.Quiet x ∧ w = Utf8.encode x) ∨
      ∃ x tag contents v, (∃ s, d.ToldBy x tag s) ∧ d.Allows tag contents ∧ v ∈ A ∧
        w = Utf8.encode (x ++ tag.opening.toList ++ contents ++ tag.closing.toList) ++ v := by
  rw [Triggers.goesOn_iff (completed?_nil htriggers)]
  simp only [quiet_ofStrings]
  refine or_congr_right ⟨?_, ?_⟩
  · rintro ⟨y, k, _, hy, ⟨u, hu, v, hv, rfl⟩, rfl⟩
    obtain ⟨s, -, hs⟩ := Triggers.completed?_eq_some.1 hy.completed
    obtain ⟨hlt, -⟩ := List.findIdx?_eq_some_iff_getElem.1 hs
    have hlt : k < d.triggers.length := by simpa [Triggers.ofStrings] using hlt
    obtain ⟨tag, htag, g, hg, htells, hu⟩ := (hD k d.triggers[k] (by simp [hlt]) u).1 hu
    obtain ⟨x, trigger, htrigger, rfl, htold⟩ := exists_toldBy hy htells
    obtain rfl : d.triggers[k] = trigger := by simpa [hlt] using htrigger
    obtain ⟨c, hc, rfl⟩ := Tag.mem_afterTrigger.1 hu
    obtain ⟨contents, rfl⟩ := (Tag.Content.printable hg).language_le_texts hc
    refine ⟨x, tag, contents, v, ⟨_, htold⟩, ⟨htag, g, hg, hc⟩, hv, ?_⟩
    simp [← Tag.encode_opening htold.shortest.begins, Utf8.ofString]
  · rintro ⟨x, tag, contents, v, ⟨s, htold⟩, ⟨htag, g, hg, hcontents⟩, hv, rfl⟩
    obtain ⟨k, trigger, htrigger, rfl, henters, htells⟩ := htold.enters
    have hmem := (hD k trigger htrigger _).2
      ⟨tag, htag, g, hg, htells, Tag.mem_afterTrigger.2 ⟨_, hcontents, rfl⟩⟩
    refine ⟨_, k, _, henters, ⟨_, hmem, v, hv, rfl⟩, ?_⟩
    simp [← Tag.encode_opening htold.shortest.begins, Utf8.ofString]

/-- A text that goes on from the start is split into free text and tags, if what comes after the
first tag is. -/
theorem goesOn_iff_splits {P : List Char → List Region → Prop}
    (hA : ∀ v : Bytes, v.length < w.length → (v ∈ A ↔ ∃ after rest, d.Splits after rest ∧
      P after rest ∧ v = Utf8.encode (after ++ rest.flatMap Region.text))) :
    (Triggers.ofStrings d.triggers).GoesOn mayEnd (fun k => D k * A) [] w ↔
      ∃ first regions, d.Splits first regions ∧ (regions = [] → mayEnd = true) ∧
        (∀ r rest, regions = r :: rest → P r.after rest) ∧
        w = Utf8.encode (first ++ regions.flatMap Region.text) := by
  -- what comes after a tag is shorter, since the tag has a beginning
  have shorter {x s contents : List Char} {tag : Tag} {v : Bytes} (htold : d.ToldBy x tag s)
      (hw : w = Utf8.encode (x ++ tag.opening.toList ++ contents ++ tag.closing.toList) ++ v) :
      v.length < w.length := by
    have hne : Utf8.encode tag.opening.toList ≠ [] := by
      intro hnil
      have hopening : tag.opening.toList = [] := List.eq_nil_iff_forall_not_mem.2 fun c hc =>
        String.utf8EncodeChar_ne_nil (List.flatMap_eq_nil_iff.1 hnil c hc)
      exact htold.ne_nil htriggers (List.prefix_nil.1 (hopening ▸ htold.shortest.begins))
    have := List.length_pos_iff.2 hne
    simp only [hw, Utf8.encode_append, List.length_append]
    omega
  rw [goesOn_iff_tag htriggers hD]
  constructor
  · rintro (⟨hend, x, hx, rfl⟩ | ⟨x, tag, contents, v, ⟨s, htold⟩, hallows, hv, hw⟩)
    · exact ⟨x, [], splits_nil.2 hx, fun _ => hend, by simp, by simp⟩
    · obtain ⟨after, rest, hsplits, hP, rfl⟩ := (hA v (shorter htold hw)).1 hv
      refine ⟨x, ⟨tag, contents, after⟩ :: rest,
        splits_cons.2 ⟨htold.quiet htriggers, hallows, ⟨s, htold⟩, hsplits⟩, by simp, ?_, ?_⟩
      · rintro r rest' heq
        obtain ⟨rfl, rfl⟩ := List.cons.inj heq
        exact hP
      · simp [hw, Region.text]
  · rintro ⟨first, regions, hsplits, hend, hP, hw⟩
    cases regions with
    | nil => exact Or.inl ⟨hend rfl, first, splits_nil.1 hsplits, by simpa using hw⟩
    | cons r rest =>
      obtain ⟨-, hallows, ⟨s, htold⟩, hrest⟩ := splits_cons.1 hsplits
      have hw : w = Utf8.encode (first ++ r.tag.opening.toList ++ r.contents ++
          r.tag.closing.toList) ++ Utf8.encode (r.after ++ rest.flatMap Region.text) := by
        simp [hw, Region.text]
      exact Or.inr ⟨first, r.tag, r.contents, _, ⟨s, htold⟩, hallows,
        (hA _ (shorter htold hw)).2 ⟨_, rest, hrest, hP r rest rfl, rfl⟩, hw⟩

/-- Free text that goes on after every tag is any text that is split into free text and tags. -/
theorem mem_iff_splits
    (hA : ∀ w, w ∈ A ↔ (Triggers.ofStrings d.triggers).GoesOn true (fun k => D k * A) [] w) :
    w ∈ A ↔ ∃ first regions, d.Splits first regions ∧
      w = Utf8.encode (first ++ regions.flatMap Region.text) := by
  induction hn : w.length using Nat.strong_induction_on generalizing w with
  | _ n ih =>
    subst hn
    rw [hA, goesOn_iff_splits htriggers hD (P := fun _ _ => True)]
    · simp
    · intro v hv
      rw [ih v.length hv rfl]
      simp

end

/-! ## Drawing the description -/

/-- Each tag has its grammar. -/
def Contents (tags : List Tag) (contents : List Grammar) : Prop :=
  List.Forall₂ (fun tag g => tag.content.grammar = .ok g) tags contents

theorem mem_zip_contents {tags : List Tag} {contents : List Grammar} (h : Contents tags contents)
    {tag : Tag} {g : Grammar} :
    (tag, g) ∈ tags.zip contents ↔ tag ∈ tags ∧ tag.content.grammar = .ok g := by
  induction h with
  | nil => simp
  | @cons tag' g' tags contents hg _ ih =>
    rw [List.zip_cons_cons, List.mem_cons, ih, List.mem_cons, Prod.mk.injEq, or_and_right]
    refine or_congr_left (and_congr_right ?_)
    rintro rfl
    simp [hg, eq_comm]

/-- The rules for the tags of each trigger. -/
private def drawDispatches (d : TagDescription) (contents : List Grammar) :
    StateM Draft (List (Option RuleId)) :=
  d.triggers.zipIdx.mapM fun x =>
    Tag.drawDispatch x.1 ((d.tags.zip contents).filter fun y => y.1.tellingTrigger? d.triggers == some x.2)

private theorem adds_drawDispatches {contents : List Grammar} (hcontents : Contents d.tags contents)
    (known : Known) : Adds (.free n) known (d.drawDispatches contents)
      (fun os => os.flatMap fun o => o.toList.map .rule)
      fun os g => d.Dispatches fun k => (os[k]?.join).elim 0 g.reading := by
  have valid : ∀ x ∈ d.tags.zip contents, x.2.Valid := by
    rintro ⟨tag, g⟩ hx
    exact (Tag.Content.printable ((mem_zip_contents hcontents).1 hx).2).valid
  refine (Adds.mapM d.triggers.zipIdx known fun x _ known' _ => Tag.adds_drawDispatch x.1
    (fun y hy => valid y (List.mem_of_mem_filter hy)) known').imp fun os g _ hos => ?_
  intro k trigger htrigger w
  obtain ⟨o, ho, hw⟩ := getElem?_of_forall₂ hos (i := k) (a := (trigger, k)) (by simp [htrigger])
  dsimp only
  rw [ho, Option.join_some, hw]
  constructor
  · rintro ⟨⟨tag, g⟩, hx, hmem⟩
    obtain ⟨hx, htells⟩ := List.mem_filter.1 hx
    obtain ⟨htag, hg⟩ := (mem_zip_contents hcontents).1 hx
    exact ⟨tag, htag, g, hg, by simpa using htells, hmem⟩
  · rintro ⟨tag, htag, g, hg, htells, hmem⟩
    exact ⟨(tag, g), List.mem_filter.2 ⟨(mem_zip_contents hcontents).2 ⟨htag, hg⟩, by simpa using htells⟩,
      hmem⟩

/-- What comes after a tag: nothing, or free text that goes on. -/
def Continues (d : TagDescription) (D : Nat → Language UInt8) (A : Language UInt8) : Prop :=
  if d.stopAfterFirst then A = 1
  else ∀ w, w ∈ A ↔ (Triggers.ofStrings d.triggers).GoesOn true (fun k => D k * A) [] w

/-- The rule where the text starts describes free text that goes on. -/
theorem adds_draw {contents : List Grammar} (htriggers : ∀ t ∈ d.triggers, t ≠ "")
    (hcontents : Contents d.tags contents) (known : Known) :
    Adds (.free n) known (d.draw contents) (fun r => [.rule r]) fun r g => ∃ D A, d.Dispatches D ∧
      d.Continues D A ∧ ∀ w, w ∈ g.reading r ↔
        (Triggers.ofStrings d.triggers).GoesOn (!d.atLeastOne) (fun k => D k * A) [] w := by
  have hnil := completed?_nil htriggers
  have hwatcher := Tag.Watcher.renames (Triggers.ofStrings d.triggers)
    (Triggers.nil_notMem_ofStrings htriggers)
  unfold draw Continues
  refine (adds_drawDispatches hcontents known).bind fun os => ?_
  have hdispatch (D : Grammar → Prop) (k : Nat) (r : RuleId) (hr : os[k]?.join = some r) :
      .rule r ∈ known.and (os.flatMap fun o => o.toList.map .rule) D := by
    have hmem := List.mem_of_getElem? (Option.join_eq_some_iff.1 hr)
    simp only [Draft.Known.mem_and, List.mem_flatMap]
    exact Or.inl ⟨_, hmem, by simp⟩
  cases hstop : d.stopAfterFirst with
  | true =>
    simp only [not_true_eq_false, and_false, if_false, if_true]
    refine (Triggers.adds_freeText hwatcher hnil (hdispatch _) "free_text" (!d.atLeastOne)
      (fun _ => none) (by simp)).imp
      fun r g _ hr hos => ?_
    exact ⟨_, 1, hos, rfl, hr⟩
  | false =>
    cases hleast : d.atLeastOne with
    | true =>
      simp only [Bool.false_eq_true, not_false_eq_true, and_self, if_true, if_false]
      refine (Triggers.adds_leadingText hwatcher hnil (hdispatch _) "leading_text" "free_text").imp
        fun r g _ hr hos => ?_
      obtain ⟨s, hr, hs⟩ := hr
      exact ⟨_, g.reading s, hos, hs, hr⟩
    | false =>
      simp only [Bool.false_eq_true, false_and, if_false]
      refine (Triggers.adds_freeText hwatcher hnil (hdispatch _) "free_text" true
        (fun r => some r) (by simp)).imp fun r g _ hr hos => ?_
      exact ⟨_, g.reading r, hos, hr, hr⟩

/-! ## The language of the description -/

/-- The numbers of regions that the flags allow, and the text after the last one. -/
structure Admits (d : TagDescription) (regions : List Region) : Prop where
  ne_nil : d.atLeastOne = true → regions ≠ []
  stops : d.stopAfterFirst = true → regions.length ≤ 1 ∧ ∀ r ∈ regions, r.after = []

theorem mem_iff_admitted {D : Nat → Language UInt8} {A : Language UInt8} {w : Bytes}
    (htriggers : ∀ t ∈ d.triggers, t ≠ "") (hD : d.Dispatches D) (hA : d.Continues D A) :
    (Triggers.ofStrings d.triggers).GoesOn (!d.atLeastOne) (fun k => D k * A) [] w ↔
      ∃ first regions, d.Splits first regions ∧ d.Admits regions ∧
        w = Utf8.encode (first ++ regions.flatMap Region.text) := by
  rw [goesOn_iff_splits htriggers hD
    (P := fun after rest => d.stopAfterFirst = true → after = [] ∧ rest = [])]
  · refine exists_congr fun first => exists_congr fun regions => and_congr_right fun _ => ?_
    rw [← and_assoc]
    refine and_congr_left fun _ => ⟨?_, ?_⟩
    · rintro ⟨hend, hP⟩
      refine ⟨fun hleast hnil => by simp [hleast] at hend; exact hend hnil, fun hstop => ?_⟩
      cases regions with
      | nil => simp
      | cons r rest =>
        obtain ⟨hafter, rfl⟩ := hP r rest rfl hstop
        simp [hafter]
    · rintro ⟨hne, hstops⟩
      refine ⟨fun hnil => by simpa using fun hleast => hne hleast hnil, ?_⟩
      rintro r rest rfl hstop
      obtain ⟨hlen, hafter⟩ := hstops hstop
      exact ⟨hafter r List.mem_cons_self, List.eq_nil_of_length_eq_zero (by simpa using hlen)⟩
  · intro v _
    unfold Continues at hA
    cases hstop : d.stopAfterFirst with
    | true =>
      rw [if_pos hstop] at hA
      rw [hA, Language.mem_one]
      constructor
      · rintro rfl
        exact ⟨[], [], splits_nil.2 (quiet_nil htriggers), by simp, rfl⟩
      · rintro ⟨after, rest, -, hP, rfl⟩
        obtain ⟨rfl, rfl⟩ := hP rfl
        rfl
    | false =>
      rw [if_neg (by simp [hstop])] at hA
      rw [mem_iff_splits htriggers hD hA]
      simp

/-- Gives the root rule its body, which refers to the rule of the text. -/
def drawRoot (d : TagDescription) (contents : List Grammar) : StateM Draft RuleId := do
  let entry ← d.draw contents
  let e ← Draft.addLeaf (.reference entry)
  let s ← Draft.add (.sequence [e])
  Draft.giveBody 0 (← Draft.add (.choice [s]))
  return 0

/-- The description has a grammar when the contents of its tags do, and the grammar describes the
texts that are split into free text and tags. -/
theorem grammar_spec (htriggers : ∀ t ∈ d.triggers, t ≠ "") :
    ((∀ tag ∈ d.tags, ∃ g, tag.content.grammar = .ok g) → ∃ g, d.grammar = .ok g) ∧
      ∀ g, d.grammar = .ok g → ∀ w, w ∈ g.language ↔ ∃ first regions, d.Splits first regions ∧
        d.Admits regions ∧ w = Utf8.encode (first ++ regions.flatMap Region.text) := by
  let d₀ := (Draft.addRule "root" .empty).2
  have blank : Draft.Blank ["root"] d₀ := Draft.blank_empty.addRule "root"
  have run {contents : List Grammar} (h : d.tags.mapM (·.content.grammar) = .ok contents) {g : Grammar} :
      d.grammar = .ok g ↔ (d.drawRoot contents d₀).2.finish 0 = .ok g := by
    rw [grammar, h]
    exact Except.mapError_eq_ok
  have fills {contents : List Grammar} (h : d.tags.mapM (·.content.grammar) = .ok contents) :
      Fills (.free 1) {.body 0} .nothing (d.drawRoot contents) (fun _ => []) fun _ g =>
        ∃ D A, d.Dispatches D ∧ d.Continues D A ∧ ∀ w, w ∈ g.reading 0 ↔
          (Triggers.ofStrings d.triggers).GoesOn (!d.atLeastOne) (fun k => D k * A) [] w := by
    refine (adds_draw htriggers (Except.forall₂_of_mapM h) _).fill fun entry =>
      (Adds.reference (by simp)).fill fun e => (Adds.sequence (by simp)).fill fun s =>
        (Adds.choice (by simp)).fill fun b => Fills.bind (Fills.giveBody (by simp [Contract.free])
          (by simp)) (fun _ => Adds.pure (by simp) ?_) (Set.union_empty _).symm (by simp)
    rintro g - - hgiven hb hs he ⟨D, A, hD, hA, hentry⟩
    obtain ⟨rule, hrule, rfl⟩ := Option.map_eq_some_iff.1 hgiven
    refine ⟨D, A, hD, hA, fun w => ?_⟩
    rw [Grammar.reading_of_body (t := g.tree rule.body) (by simp [Grammar.body, hrule]), ← hentry]
    simp [hb, hs, he, Leaf.language]
  constructor
  · intro h
    obtain ⟨contents, hcontents⟩ := Except.exists_mapM_eq_ok h
    obtain ⟨g, hg⟩ : ∃ g, (d.drawRoot contents d₀).2.finish 0 = .ok g :=
      (fills hcontents).finish blank rfl trivial (by simp) (by simp)
    exact ⟨g, (run hcontents).2 hg⟩
  · intro g h w
    obtain ⟨contents, hcontents, -⟩ := Except.bind_eq_ok.1 h
    obtain ⟨-, hroot, D, A, hD, hA, hlanguage⟩ :=
      (fills hcontents).of_finish blank rfl ((run hcontents).1 h)
    rw [Grammar.language, hroot, hlanguage, mem_iff_admitted htriggers hD hA]

/-- The triggers of a description that can be read are not empty. -/
theorem ne_empty_of_parse {text : String} (h : parse text = .ok d) : ∀ t ∈ d.triggers, t ≠ "" := by
  unfold parse at h
  split at h
  · cases h
  · rename_i v _
    have h := Except.mapError_eq_ok.1 h
    cases hread : Tag.readParts? v with
    | none => simp [ofValue, hread] at h
    | some parts =>
      obtain ⟨triggers, written, atLeastOne, stopAfterFirst⟩ := parts
      cases hempty : triggers.isEmpty with
      | true =>
        simp only [ofValue, hread, hempty] at h
        cases h
      | false =>
        cases hfind : triggers.findIdx? (·.isEmpty) with
        | some i => simp [ofValue, hread, hfind, hempty] at h
        | none =>
          simp only [ofValue, hread, hfind, hempty] at h
          obtain ⟨tags, -, ⟨⟩⟩ := Except.bind_eq_ok.1 h
          simpa using hfind

/-- The grammar of a description describes free text and tagged regions in turn: a region is told by
the shortest trigger that its tag begins with, which is the first trigger to end after the free text
before it and the longest one to end there, and the flags say how many regions there are. -/
theorem grammar_describes_tagged_texts {text : String} {g : Grammar} (hparse : parse text = .ok d)
    (h : d.grammar = .ok g) (w : Bytes) :
    w ∈ g.language ↔ ∃ first regions, d.Splits first regions ∧ d.Admits regions ∧
      w = Utf8.encode (first ++ regions.flatMap Region.text) :=
  (grammar_spec (ne_empty_of_parse hparse)).2 g h w

/-- A trigger within another one, and a tag that begins with the inner one and goes on like the
outer one. -/
def innerTriggerText : String :=
  "\x7b\"triggers\":[\"abc\",\"b\"],\"tags\":[\x7b\"begin\":\"bc\",\"ebnf\":\"root ::= \\\"z\\\"\",\"end\":\">\"\x7d]," ++
    "\"at_least_one\":true\x7d"

/-- The description that `innerTriggerText` spells. -/
def innerTrigger : TagDescription :=
  ⟨["abc", "b"], [⟨"bc", .ebnf "root ::= \"z\"", ">"⟩], true, false⟩

theorem innerTrigger_describes : parse innerTriggerText = .ok innerTrigger ∧ ∃ g,
    innerTrigger.grammar = .ok g ∧ ∀ w, w ∈ g.language ↔ ∃ first regions,
      innerTrigger.Splits first regions ∧ innerTrigger.Admits regions ∧
        w = Utf8.encode (first ++ regions.flatMap Region.text) := by
  have hparse : parse innerTriggerText = .ok innerTrigger := by cbv
  have hts : Ebnf.tokens "root ::= \"z\"" = .ok [⟨⟨1, 1⟩, .ruleName "root"⟩, ⟨⟨1, 6⟩, .assign⟩,
      ⟨⟨1, 10⟩, .literal "z"⟩, ⟨⟨1, 13⟩, .endOfFile⟩] := by cbv
  have declares : Ebnf.Declares [.ruleName "root", .assign, .literal "z", .endOfFile]
      [⟨"root", 0, .choice [.sequence [.literal "z"]], none⟩] :=
    ⟨[.ruleName "root", .assign, .literal "z"], rfl,
      .cons (.rule rfl (.only (.last (.plain (.literal (by decide))))) .nothing) .nil⟩
  obtain ⟨contents, hcontents, -⟩ := Grammar.exists_parse hts declares (by decide)
    (show "root" ∈ ["root"] by decide)
  obtain ⟨g, hg⟩ := (grammar_spec (ne_empty_of_parse hparse)).1 fun tag htag => by
    obtain rfl := List.mem_singleton.1 htag
    exact ⟨contents, Except.mapError_eq_ok.2 hcontents⟩
  exact ⟨hparse, g, hg, grammar_describes_tagged_texts hparse hg⟩

end TagDescription

end ConstrainedDecoding
