import ConstrainedDecoding.Proofs.DecimalRanges
import ConstrainedDecoding.Proofs.PatternDescent
import ConstrainedDecoding.Proofs.SchemaShapes

/-!
# Schemas as grammar texts

The sources of schemas have the form that grammar texts ask for: the literals, classes and names in
them can be read, and so can the repetitions if the counts of the schema are not too great.
-/
namespace ConstrainedDecoding.Schema

open Ebnf
open Json (Value)

variable {known : String → Prop} {fits : Quantifier → Prop} {l : Layout} {depth : Nat}

/-! ## Layouts -/

/-- A layout with white space between tokens has a rule for it. -/
def Layout.Known (known : String → Prop) : Layout → Prop
  | .anyWhitespace .. => known "ws"
  | .fixed .. => True

theorem isName_ws : IsName "ws" := by simp [IsName, startsName, continuesName]

namespace Layout

section

variable (hl : l.Known known)

include hl

theorem formed_opening (bracket : String) : ∀ s ∈ l.opening bracket depth, Formed known fits .sequence s := by
  cases l with
  | anyWhitespace => simp [opening, blanks, isName_ws, show known "ws" from hl]
  | fixed item keyValue indent => cases indent <;> simp [opening, newline?]

theorem formed_closing (bracket : String) : ∀ s ∈ l.closing bracket depth, Formed known fits .sequence s := by
  cases l with
  | anyWhitespace => simp [closing, blanks, isName_ws, show known "ws" from hl]
  | fixed item keyValue indent => cases indent <;> simp [closing, newline?]

theorem formed_emptyContainer (a b : String) : Formed known fits .sequence (.sequence (l.emptyContainer a b)) := by
  cases l with
  | anyWhitespace => simp [emptyContainer, blanks, isName_ws, show known "ws" from hl]
  | fixed item keyValue indent => simp [emptyContainer]

theorem formed_itemSeparator : ∀ s ∈ l.itemSeparator depth, Formed known fits .sequence s := by
  cases l with
  | anyWhitespace => simp [itemSeparator, blanks, isName_ws, show known "ws" from hl]
  | fixed item keyValue indent => cases indent <;> simp [itemSeparator, newline?]

theorem formed_keyValueSeparator : ∀ s ∈ l.keyValueSeparator, Formed known fits .sequence s := by
  cases l with
  | anyWhitespace => simp [keyValueSeparator, blanks, isName_ws, show known "ws" from hl]
  | fixed item keyValue indent => simp [keyValueSeparator]

theorem known_flat : l.flat.Known known := by
  cases l with
  | anyWhitespace => exact hl
  | fixed => trivial

end

theorem opening_ne_nil (l : Layout) (bracket : String) (depth : Nat) : l.opening bracket depth ≠ [] := by
  cases l with
  | anyWhitespace => simp [opening]
  | fixed item keyValue indent => cases indent <;> simp [opening, newline?]

end Layout

/-! ## Containers -/

section

variable {item separator extra : List Source}

/-- Sources in sequence may be repeated. -/
theorem formed_repetition {ss : List Source} {q : Quantifier} (hne : ss ≠ [])
    (hss : ∀ s ∈ ss, Formed known fits .sequence s) (hq : fits q) :
    Formed known fits .sequence (.quantified (.group [.sequence ss]) q) :=
  formed_quantified.2 ⟨formed_group.2 ⟨List.cons_ne_nil _ _,
    List.forall_mem_singleton.2 (formed_sequence.2 ⟨hne, hss⟩)⟩, hq⟩

theorem formed_listOf (hfits : ∀ q : Quantifier, q.Fits → fits q) (hne : item ≠ [])
    (hitem : ∀ s ∈ item, Formed known fits .sequence s) (hseparator : ∀ s ∈ separator, Formed known fits .sequence s) :
    Formed known fits .sequence (listOf item separator) := by
  have further := formed_repetition (by simp [hne]) (List.forall_mem_append.2 ⟨hseparator, hitem⟩)
    (hfits _ Quantifier.fits_star)
  exact formed_repetition (by simp) (List.forall_mem_append.2 ⟨hitem, List.forall_mem_singleton.2 further⟩)
    (hfits _ Quantifier.fits_question)

theorem formed_enclosed {opening closing : String} {body : List Source} (hl : l.Known known)
    (hbody : ∀ s ∈ body, Formed known fits .sequence s) :
    Formed known fits .sequence (.sequence (l.opening opening depth ++ body ++ l.closing closing depth)) := by
  refine formed_sequence.2 ⟨by simp [Layout.opening_ne_nil], ?_⟩
  exact List.forall_mem_append.2 ⟨List.forall_mem_append.2 ⟨Layout.formed_opening hl _, hbody⟩,
    Layout.formed_closing hl _⟩

theorem formed_container {opening closing : String} {body : List Source} {mayBeEmpty : Bool} (hl : l.Known known)
    (hbody : ∀ s ∈ body, Formed known fits .sequence s) :
    Formed known fits .sequence (container l opening closing depth body mayBeEmpty) := by
  have full : Formed known fits .sequence
      (.sequence (l.opening opening depth ++ body ++ l.closing closing depth)) := formed_enclosed hl hbody
  unfold container
  dsimp only
  split
  · refine formed_sequence_group.2 ⟨List.cons_ne_nil _ _, List.forall_mem_cons.2 ⟨full, ?_⟩⟩
    exact List.forall_mem_singleton.2 (Layout.formed_emptyContainer hl _ _)
  · exact full

theorem formed_separated {items : List Source} (hitems : ∀ s ∈ items, Formed known fits .sequence s)
    (hseparator : ∀ s ∈ separator, Formed known fits .sequence s) :
    ∀ s ∈ separated separator items, Formed known fits .sequence s := by
  fun_induction separated separator items with
  | case1 => exact hitems
  | case2 => exact hitems
  | case3 item rest _ ih =>
    obtain ⟨hitem, hrest⟩ := List.forall_mem_cons.1 hitems
    rw [List.cons_append]
    exact List.forall_mem_cons.2 ⟨hitem, List.forall_mem_append.2 ⟨hseparator, ih hrest⟩⟩

theorem formed_repeated {s : Source} {least : Nat} {most : Option Nat} (hs : Formed known fits .sequence s)
    (hfits : ∀ q ∈ Quantifier.ofBounds? least most, fits q) :
    ∀ t ∈ s.repeated least most, Formed known fits .sequence t := by
  unfold Source.repeated
  split
  · rename_i q hq
    simpa [hs] using hfits q hq
  · exact List.forall_mem_nil _

/-- The repetitions that the counts of a schema lead to. -/
def Repeats (fits : Quantifier → Prop) (least : Nat) (most : Option Nat) : Prop :=
  ∀ k, ∀ q ∈ Quantifier.ofBounds? (least - k) (most.map (· - k)), fits q

theorem formed_arraySource {items : List Source} {more : Option Source} {least : Nat} {most : Option Nat}
    (hl : l.Known known) (hrepeats : Repeats fits least most)
    (hitems : ∀ s ∈ items, Formed known fits .sequence s) (hmore : ∀ s ∈ more, Formed known fits .sequence s) :
    Formed known fits .sequence (arraySource l depth items more least most) := by
  have separator : ∀ s ∈ l.itemSeparator depth, Formed known fits .sequence s := Layout.formed_itemSeparator hl
  have further {item : Source} (hitem : Formed known fits .sequence item) :
      Formed known fits .sequence (.sequence (l.itemSeparator depth ++ [item])) :=
    formed_sequence.2 ⟨by simp, List.forall_mem_append.2 ⟨separator, List.forall_mem_singleton.2 hitem⟩⟩
  unfold arraySource
  dsimp only
  split
  · exact Layout.formed_emptyContainer hl _ _
  · exact formed_container hl (formed_separated hitems separator)
  · rename_i item
    have hitem := hmore item rfl
    exact formed_container hl (List.forall_mem_cons.2 ⟨hitem, formed_repeated (further hitem) (hrepeats 1)⟩)
  · rename_i item
    refine formed_container hl (List.forall_mem_append.2 ⟨formed_separated hitems separator, ?_⟩)
    refine formed_repeated (further (hmore _ rfl)) ?_
    simpa using hrepeats 0

/-- The sources of members have the form of parts of a sequence. -/
def MembersFormed (known : String → Prop) (fits : Quantifier → Prop) (members : List Member) : Prop :=
  ∀ m ∈ members, m.sources ≠ [] ∧ ∀ s ∈ m.sources, Formed known fits .sequence s

section

variable (hfits : ∀ q : Quantifier, q.Fits → fits q) (hseparator : ∀ s ∈ separator, Formed known fits .sequence s)
  {extra : Option (List Source)}
  (hextra : ∀ e ∈ extra, e ≠ [] ∧ ∀ s ∈ e, Formed known fits .sequence s)

include hfits hseparator

theorem formed_extraMembers {e : List Source} (he : e ≠ [] ∧ ∀ s ∈ e, Formed known fits .sequence s) :
    Formed known fits .sequence (extraMembers separator e) :=
  formed_repetition (by simp [he.1]) (List.forall_mem_append.2 ⟨hseparator, he.2⟩) (hfits _ Quantifier.fits_star)

include hextra

theorem formed_laterMembers {members : List Member} (h : MembersFormed known fits members) :
    ∀ s ∈ laterMembers separator extra members, Formed known fits .sequence s := by
  induction members with
  | nil =>
    unfold laterMembers
    split
    · exact List.forall_mem_singleton.2 (formed_extraMembers hfits hseparator (hextra _ rfl))
    · exact List.forall_mem_nil _
  | cons m rest ih =>
    obtain ⟨⟨hne, hm⟩, hrest⟩ := List.forall_mem_cons.1 h
    rw [laterMembers]
    refine List.forall_mem_append.2 ⟨?_, ih hrest⟩
    split
    · exact List.forall_mem_append.2 ⟨hseparator, hm⟩
    · refine List.forall_mem_singleton.2 (formed_repetition (by simp [hne]) ?_ (hfits _ Quantifier.fits_question))
      exact List.forall_mem_append.2 ⟨hseparator, hm⟩

theorem formed_memberLists {members : List Member} (h : MembersFormed known fits members) :
    ∀ s ∈ memberLists separator extra members, Formed known fits .sequence s := by
  induction members with
  | nil =>
    unfold memberLists
    split
    · have further := formed_extraMembers hfits hseparator (hextra _ rfl)
      refine List.forall_mem_singleton.2 (formed_sequence.2 ⟨by simp, ?_⟩)
      exact List.forall_mem_append.2 ⟨(hextra _ rfl).2, List.forall_mem_singleton.2 further⟩
    · exact List.forall_mem_nil _
  | cons m rest ih =>
    obtain ⟨⟨hne, hm⟩, hrest⟩ := List.forall_mem_cons.1 h
    rw [memberLists]
    refine List.forall_mem_cons.2 ⟨formed_sequence.2 ⟨by simp [hne], ?_⟩, ?_⟩
    · exact List.forall_mem_append.2 ⟨hm, formed_laterMembers hfits hseparator hextra hrest⟩
    · split
      · exact List.forall_mem_nil _
      · exact ih hrest

end

theorem formed_objectSource {members : List Member} {extra : Option (List Source)} {mayBeEmpty : Bool}
    (hfits : ∀ q : Quantifier, q.Fits → fits q) (hl : l.Known known) (hmembers : MembersFormed known fits members)
    (hextra : ∀ e ∈ extra, e ≠ [] ∧ ∀ s ∈ e, Formed known fits .sequence s) :
    Formed known fits .sequence (objectSource l depth members extra mayBeEmpty) := by
  have alternatives : ∀ s ∈ memberLists (l.itemSeparator depth) extra members, Formed known fits .sequence s :=
    formed_memberLists hfits (Layout.formed_itemSeparator hl) hextra hmembers
  unfold objectSource
  split
  · exact Layout.formed_emptyContainer hl _ _
  · rename_i hne
    exact formed_container hl (List.forall_mem_singleton.2 (formed_ofAlternatives.2 ⟨hne, alternatives⟩))

end

/-! ## Strings and numbers -/

theorem formed_quotedTimes {char : String} {least : Nat} {most : Option Nat}
    (hchar : IsName char ∧ known char) (hrepeats : Repeats fits least most) :
    Formed known fits .sequence (quotedTimes char least most) := by
  have chars : ∀ s ∈ (Source.name char).repeated least most, Formed known fits .sequence s :=
    formed_repeated (formed_sequence_name.2 hchar) (by simpa using hrepeats 0)
  unfold quotedTimes
  split
  · exact formed_sequence_literal
  · refine formed_sequence.2 ⟨by simp, List.forall_mem_append.2 ⟨List.forall_mem_append.2 ⟨?_, chars⟩, ?_⟩⟩ <;>
      exact List.forall_mem_singleton.2 formed_sequence_literal

theorem readable_integerSource : Readable known .sequence integerSource := by
  simp [integerSource, readable_naturalSource.toSequence]

/-- Well-formed items in sequence can be read. -/
theorem readable_items {items : List Regex.Pattern} (h : ∀ p ∈ items, p.WellFormed .item) :
    Readable known .sequence (Regex.Pattern.sequence items).toSource :=
  (Regex.Pattern.WellFormed.sequence h).readable.1

theorem readable_patternSource {text : String} {source : Source} (h : patternSource text = .ok source) :
    Readable known .sequence source := by
  unfold patternSource at h
  split at h
  · cases h
  · rename_i p hp
    obtain rfl := Except.ok.inj h
    have : Readable known .sequence p.toSource := (Regex.Pattern.parse_sound hp).2.readable.1
    simpa using this

theorem digitCount_le {n : Nat} (h : n ≤ boundLimit + 2) : Regex.digitCount n ≤ Regex.digitLimit :=
  (Regex.digitCount_mono h).trans
    (((Nat.length_toDigits_le_iff (k := 19) (by decide) (by decide)).2 (by decide)).trans (by decide))

theorem Moderate.countable {bound : Option Int} (h : Moderate bound) : ∀ z ∈ bound, Regex.Countable z :=
  fun z hz => digitCount_le ((h z hz).trans (by decide))

/-- The pattern for the integers between bounds, one of which is there. -/
theorem fit_integers {lo hi : Option Int} (hsome : lo ≠ none ∨ hi ≠ none) (h : Shaped (.integer lo hi)) :
    Regex.Fit (Regex.integersBetween lo hi) (Regex.signed (Regex.Within lo hi)) :=
  Regex.fit_integersBetween hsome h.1 h.2.1.countable h.2.2.countable

theorem Moderate.nearCountable {bound : Option Int} (h : Moderate bound) : Regex.NearCountable bound :=
  fun z hz => digitCount_le (Nat.succ_le_succ (h z hz))

/-- The pattern for the numbers between bounds, one of which is there. -/
theorem fit_decimals {lo hi : Option Int} (hsome : lo ≠ none ∨ hi ≠ none) (h : Shaped (.number lo hi))
    (hne : Regex.decimalsBetween lo hi ≠ []) :
    Regex.Fit (Regex.oneOf (Regex.decimalsBetween lo hi)) (Regex.decimalsWithin lo hi) :=
  Regex.fit_decimalsBetween hsome h.1.nearCountable h.2.nearCountable hne

/-! ## Schemas -/

/-- The rules of a progress can be used. -/
structure Progress.Usable (known : String → Prop) (p : Progress) : Prop where
  anyValue : ∀ n ∈ p.anyValue, IsName n ∧ known n
  anyString : ∀ n ∈ p.anyString, IsName n ∧ known n
  stringChar : ∀ n ∈ p.stringChar, IsName n ∧ known n
  reference : ∀ key, ∀ n ∈ p.references.lookup key, IsName n ∧ known n

/-- The repetitions that a schema leads to fit. -/
def CountsFit (fits : Quantifier → Prop) : Schema → Prop
  | .string least most | .array _ _ least most => Repeats fits least most
  | _ => True

section

variable {document : Value} {strict : Bool} {p : Progress}

theorem formed_leaf (hfits : ∀ q : Quantifier, q.Fits → fits q) (hl : l.Known known) (hp : p.Usable known)
    {s : Schema} {source : Source} (hleaf : IsLeaf s) (hshaped : Shaped s) (hcounts : CountsFit fits s)
    (hsource : source ∈ source? p l depth s) : Formed known fits .sequence source := by
  have readable {source : Source} (h : Readable known .sequence source) : Formed known fits .sequence source :=
    h.imp (fun _ h => h) hfits
  cases s with
  | anyOf | allOf | types | array | object => exact hleaf.elim
  | any =>
    obtain ⟨n, hn, rfl⟩ := Option.mem_map.1 hsource
    exact formed_sequence_name.2 (hp.anyValue n hn)
  | invalid => cases hsource
  | reference target =>
    obtain ⟨n, hn, rfl⟩ := Option.mem_map.1 hsource
    exact formed_sequence_name.2 (hp.reference _ n hn)
  | values vs =>
    obtain rfl := Option.some.inj hsource
    have hne : vs ≠ [] := hshaped
    exact formed_ofAlternatives.2 ⟨by simpa using hne, List.forall_mem_map.2 fun _ _ => formed_sequence_literal⟩
  | boolean | null =>
    obtain rfl := Option.some.inj hsource
    simp
  | pattern text => exact readable (readable_patternSource (mem_source?_pattern.1 hsource))
  | string least most =>
    rw [source?] at hsource
    split at hsource
    · obtain ⟨n, hn, rfl⟩ := Option.mem_map.1 hsource
      exact formed_sequence_name.2 (hp.anyString n hn)
    · obtain ⟨n, hn, rfl⟩ := Option.mem_map.1 hsource
      exact formed_quotedTimes (hp.stringChar n hn) hcounts
  | integer lo hi =>
    rcases mem_source?_integer hsource with ⟨-, rfl⟩ | ⟨hsome, rfl⟩
    · exact readable readable_integerSource
    · exact readable (readable_items (fit_integers hsome hshaped).wellFormed)
  | number lo hi =>
    rcases mem_source?_number hsource with ⟨-, rfl⟩ | ⟨hsome, hne, rfl⟩
    · exact readable readable_numberSource
    · have hfit := fit_decimals hsome hshaped hne
      exact readable (readable_items hfit.wellFormed)
  | emptyObject =>
    obtain rfl := Option.some.inj hsource
    exact Layout.formed_emptyContainer hl _ _

theorem inherited_formed (hfits : ∀ q : Quantifier, q.Fits → fits q) (hl : l.Known known) (hp : p.Usable known)
    (hcounts : ∀ s, Asked document strict s → CountsFit fits s) :
    Inherited document strict p l (Formed known fits .sequence) where
  leaf hleaf hasked hsource :=
    formed_leaf hfits hl hp hleaf hasked.proper.shaped (hcounts _ hasked) hsource
  anyValue n hn := formed_sequence_name.2 (hp.anyValue n hn)
  choice hne h := formed_ofAlternatives.2 ⟨hne, h⟩
  array {_ initial _ least most _ _} hasked hitems hitem := by
    refine formed_arraySource hl (fun k q hq => hcounts _ hasked (initial.length + k) q ?_) hitems hitem
    simpa only [Option.map_map, Function.comp_def, Nat.sub_sub] using hq
  object hmembers hextra := by
    have member {first value : Source} (hfirst : Formed known fits .sequence first)
        (hvalue : Formed known fits .sequence value) :
        ∀ s ∈ [first] ++ l.keyValueSeparator ++ [value], Formed known fits .sequence s :=
      List.forall_mem_append.2 ⟨List.forall_mem_append.2 ⟨List.forall_mem_singleton.2 hfirst,
        Layout.formed_keyValueSeparator hl⟩, List.forall_mem_singleton.2 hvalue⟩
    refine formed_objectSource hfits hl (fun m hm => ?_) fun e he => ?_
    · obtain ⟨key, value, heq, hvalue⟩ := hmembers m hm
      rw [heq]
      exact ⟨by simp, member formed_sequence_literal hvalue⟩
    · obtain ⟨key, hkey, value, rfl, hvalue⟩ := hextra e he
      exact ⟨by simp, member (formed_sequence_name.2 (hp.anyString key hkey)) hvalue⟩

/-! ## Productions -/

theorem readable_charAlternatives : ∀ s ∈ charAlternatives, Readable known .sequence s := by
  have unescaped := writes_unescaped (List.Perm.refl _)
  have four : (Quantifier.exactly 4).Fits := by simp [Quantifier.Fits, Quantifier.least, Quantifier.most, Quantifier.limit]
  simp [charAlternatives, unescaped, readable_classOf, four]

theorem formed_quotedStar (hfits : ∀ q : Quantifier, q.Fits → fits q) {char : String}
    (hchar : IsName char ∧ known char) : Formed known fits .sequence (quotedStar char) := by
  simp [quotedStar, hchar, hfits]

theorem formed_valueAlternatives (hfits : ∀ q : Quantifier, q.Fits → fits q) (hl : l.Known known)
    {value string number : String} (hvalue : IsName value ∧ known value) (hstring : IsName string ∧ known string)
    (hnumber : IsName number ∧ known number) :
    ∀ s ∈ valueAlternatives l value string number, Formed known fits .sequence s := by
  have hflat := Layout.known_flat hl
  have separator : ∀ s ∈ l.flat.itemSeparator 0, Formed known fits .sequence s := Layout.formed_itemSeparator hflat
  have value : Formed known fits .sequence (.name value) := formed_sequence_name.2 hvalue
  have string : Formed known fits .sequence (.name string) := formed_sequence_name.2 hstring
  have list {item : List Source} (hne : item ≠ []) (hitem : ∀ s ∈ item, Formed known fits .sequence s) :
      ∀ s ∈ [listOf item (l.flat.itemSeparator 0)], Formed known fits .sequence s :=
    List.forall_mem_singleton.2 (formed_listOf hfits hne hitem separator)
  simp only [valueAlternatives, List.forall_mem_cons]
  refine ⟨formed_enclosed hflat (list (by simp) ?_), formed_enclosed hflat (list (by simp) ?_), string,
    formed_sequence_name.2 hnumber, formed_sequence_literal, formed_sequence_literal, formed_sequence_literal,
    List.forall_mem_nil _⟩
  · exact List.forall_mem_append.2 ⟨List.forall_mem_append.2 ⟨List.forall_mem_singleton.2 string,
      Layout.formed_keyValueSeparator hflat⟩, List.forall_mem_singleton.2 value⟩
  · exact List.forall_mem_singleton.2 value

/-- The productions of a complete progress have names and sources of the right form. -/
theorem Origin.formed {q : Production} (h : Origin document strict l p q) (hfits : ∀ q : Quantifier, q.Fits → fits q)
    (hl : l.Known known) (hp : p.Usable known) (hproductions : ∀ q ∈ p.productions, IsName q.name ∧ known q.name)
    (hcounts : ∀ s, Asked document strict s → CountsFit fits s) :
    q.alternatives ≠ [] ∧ ∀ s ∈ q.alternatives, Formed known fits .sequence s := by
  cases h with
  | char => exact ⟨by simp [charAlternatives], fun s hs => (readable_charAlternatives s hs).imp (fun _ h => h) hfits⟩
  | string _ hc => exact ⟨by simp, List.forall_mem_singleton.2 (formed_quotedStar hfits (hp.stringChar _ hc))⟩
  | number => exact ⟨by simp, List.forall_mem_singleton.2 (readable_numberSource.imp (fun _ h => h) hfits)⟩
  | value hn hs hm =>
    exact ⟨by simp [valueAlternatives], formed_valueAlternatives hfits hl (hp.anyValue _ hn) (hp.anyString _ hs)
      (hproductions _ hm)⟩
  | reference _ hasked hbody =>
    exact ⟨by simp, List.forall_mem_singleton.2 ((inherited_formed hfits hl hp hcounts).of_source _ _ hasked _ hbody)⟩

end

end ConstrainedDecoding.Schema
