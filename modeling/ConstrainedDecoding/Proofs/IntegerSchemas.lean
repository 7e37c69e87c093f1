import ConstrainedDecoding.Proofs.Rounding
import ConstrainedDecoding.Proofs.SchemaTexts

/-!
# Integers between two bounds

The bounds of a schema of integers are read as doubles. So the schema describes the decimal texts of the
integers between the doubles nearest to its bounds, which are the bounds themselves up to 2 ^ 53.
-/
namespace ConstrainedDecoding.Regex

/-- The decimal texts of integers with a property. -/
theorem mem_signed {P : Int → Prop} {text : List Char} :
    text ∈ signed P ↔ ∃ z, P z ∧ text = (toString z).toList := by
  have negative (n : Nat) : (toString (Int.negSucc n)).toList = '-' :: Nat.toDigits 10 (n + 1) := by
    change ("-" ++ (n + 1).repr).toList = _
    rw [String.toList_append]
    simp [Nat.repr]
  rw [signed, Language.mem_add, mem_numerals]
  constructor
  · rintro (⟨n, hn, rfl⟩ | ⟨_, rfl, _, ⟨n, ⟨hpos, hn⟩, rfl⟩, rfl⟩)
    · exact ⟨n, hn, by change _ = n.repr.toList; simp [Nat.repr]⟩
    · obtain ⟨n, rfl⟩ := Nat.exists_eq_succ_of_ne_zero hpos.ne'
      exact ⟨Int.negSucc n, hn, (negative n).symm⟩
  · rintro ⟨z, hz, rfl⟩
    cases z with
    | ofNat n => exact Or.inl ⟨n, hz, by change n.repr.toList = _; simp [Nat.repr]⟩
    | negSucc n => exact Or.inr ⟨['-'], rfl, _, ⟨n + 1, ⟨Nat.succ_pos n, hz⟩, rfl⟩, (negative n).symm⟩

end ConstrainedDecoding.Regex

namespace ConstrainedDecoding

/-- The integer that the double nearest to an integer stands for. -/
def nearestInteger (z : Int) : Int :=
  if z < 0 then -(nearestDouble z.natAbs : Int) else nearestDouble z.natAbs

@[simp] theorem natAbs_nearestInteger (z : Int) : (nearestInteger z).natAbs = nearestDouble z.natAbs := by
  unfold nearestInteger
  split <;> simp

theorem nearestInteger_of_le {z : Int} (h : z.natAbs ≤ 2 ^ 53) : nearestInteger z = z := by
  rw [nearestInteger, nearestDouble_of_le h]
  split <;> omega

theorem nearestInteger_mono {y z : Int} (h : y ≤ z) : nearestInteger y ≤ nearestInteger z := by
  unfold nearestInteger
  split_ifs with hy hz hz
  · have : nearestDouble z.natAbs ≤ nearestDouble y.natAbs := nearestDouble_mono (by omega)
    omega
  · omega
  · omega
  · have : nearestDouble y.natAbs ≤ nearestDouble z.natAbs := nearestDouble_mono (by omega)
    omega

namespace Schema

open Ebnf Json

/-- The keywords of the schema of the integers between two bounds. -/
def keywordsBetween (lo hi : Int) : List (String × Value) :=
  [("type", .string "integer"), ("minimum", .number (.int lo)), ("maximum", .number (.int hi))]

/-- The schema of the integers between two bounds. -/
def integerBetween (lo hi : Int) : Value := .object (keywordsBetween lo hi)

/-- Nothing inside an object without containers is a container. -/
theorem PartOf.of_leaves {members : List (String × Value)}
    (hleaves : ∀ m ∈ members, (∀ items, m.2 ≠ .array items) ∧ ∀ ms, m.2 ≠ .object ms) {v : Value}
    (h : PartOf (.object members) v) :
    v = .object members ∨ (∀ items, v ≠ .array items) ∧ ∀ ms, v ≠ .object ms := by
  induction h with
  | self => exact Or.inl rfl
  | item _ _ ih =>
    rcases ih with heq | ⟨hne, -⟩
    · cases heq
    · exact absurd rfl (hne _)
  | member _ hmem ih =>
    rcases ih with heq | ⟨-, hne⟩
    · obtain rfl := Value.object.inj heq
      exact Or.inr (hleaves _ hmem)
    · exact absurd rfl (hne _)

/-- An object without containers and counts has no counts that are too great. -/
theorem limited_of_leaves {members : List (String × Value)}
    (hleaves : ∀ m ∈ members, (∀ items, m.2 ≠ .array items) ∧ ∀ ms, m.2 ≠ .object ms)
    (hcounts : ∀ m ∈ members, m.1 ∉ ["minLength", "maxLength", "minItems", "maxItems"]) :
    Limited (.object members) := by
  intro ms h key hkey n hn
  rcases h.of_leaves hleaves with heq | ⟨-, hne⟩
  · obtain rfl := Value.object.inj heq
    obtain ⟨v, hv, -⟩ := Option.bind_eq_some_iff.1 hn
    exact absurd hkey (hcounts _ (mem_of_lookup hv))
  · exact absurd rfl (hne _)

theorem limited_integerBetween (lo hi : Int) : Limited (integerBetween lo hi) :=
  limited_of_leaves (by simp [keywordsBetween]) (by simp [keywordsBetween])

/-- A bound that is written as an integer is read as the double nearest to it. -/
theorem boundUnder_int {members : List (String × Value)} {key : String} {z : Int}
    (hlookup : Value.lookup key members = some (.number (.int z))) (hz : z.natAbs < boundLimit)
    (hlimit : nearestDouble z.natAbs < boundLimit) :
    ∃ x, boundUnder members key = .ok (some x) ∧ floorOf x = nearestInteger z ∧ ceilOf x = nearestInteger z := by
  obtain ⟨x, hx, d, hd, hratio⟩ := round?_whole (hz.trans (by decide))
  obtain ⟨hfloor, hceil⟩ := floor_ceil_of_toRatio hd hratio
  refine ⟨(decide (z < 0), x), ?_, ?_, ?_⟩
  · have hdouble : double? (.number (.int z)) = some (decide (z < 0), x) := by simp [double?, hx]
    simp only [boundUnder, hlookup, hdouble, hratio]
    rw [if_pos (Nat.mul_lt_mul_of_pos_right hlimit hd)]
  · simp [floorOf, hfloor, hceil, nearestInteger]
  · simp [ceilOf, hfloor, hceil, nearestInteger]

/-- A bound whose nearest double is beyond the limit is refused. -/
theorem boundUnder_int_far {members : List (String × Value)} {key : String} {z : Int}
    (hlookup : Value.lookup key members = some (.number (.int z))) (hz : z.natAbs < boundLimit)
    (hfar : boundLimit ≤ nearestDouble z.natAbs) : boundUnder members key = .error (.bound key) := by
  obtain ⟨x, hx, d, hd, hratio⟩ := round?_whole (hz.trans (by decide))
  have hdouble : double? (.number (.int z)) = some (decide (z < 0), x) := by simp [double?, hx]
  simp only [boundUnder, hlookup, hdouble, hratio]
  rw [if_neg (Nat.not_lt.2 (Nat.mul_le_mul_right d hfar))]

theorem ofValue_integerBetween_far {strict : Bool} {lo hi : Int} (hlo : lo.natAbs < boundLimit)
    (hhi : hi.natAbs < boundLimit)
    (hfar : boundLimit ≤ nearestDouble lo.natAbs ∨ boundLimit ≤ nearestDouble hi.natAbs) :
    ∃ cause, ofValue strict (integerBetween lo hi) = .invalid cause := by
  have hminimum : Value.lookup "minimum" (keywordsBetween lo hi) = some (.number (.int lo)) := rfl
  have hmaximum : Value.lookup "maximum" (keywordsBetween lo hi) = some (.number (.int hi)) := rfl
  have habove : boundUnder (keywordsBetween lo hi) "exclusiveMinimum" = .ok none := rfl
  have hread : ofValue strict (integerBetween lo hi) = ofBounds (keywordsBetween lo hi) true := by
    simp [integerBetween, keywordsBetween, ofValue, ofMembers, ofType, Value.lookup]
  rw [hread, ofBounds]
  rcases Nat.lt_or_ge (nearestDouble lo.natAbs) boundLimit with hlt | hge
  · obtain ⟨x, hx, -, -⟩ := boundUnder_int hminimum hlo hlt
    have hy := boundUnder_int_far hmaximum hhi (hfar.resolve_left (Nat.not_le.2 hlt))
    exact ⟨.bound "maximum", by simp [wholeBounds, hx, hy, habove, bind, Except.bind]⟩
  · have hx := boundUnder_int_far hminimum hlo hge
    exact ⟨.bound "minimum", by simp [wholeBounds, hx, bind, Except.bind]⟩

theorem ofValue_integerBetween {strict : Bool} {lo hi : Int} (hle : lo ≤ hi) (hlo : lo.natAbs < boundLimit)
    (hhi : hi.natAbs < boundLimit) (hlo' : nearestDouble lo.natAbs < boundLimit)
    (hhi' : nearestDouble hi.natAbs < boundLimit) :
    ofValue strict (integerBetween lo hi) = .integer (some (nearestInteger lo)) (some (nearestInteger hi)) := by
  obtain ⟨x, hx, -, hceil⟩ := boundUnder_int (show Value.lookup "minimum" (keywordsBetween lo hi) = _ from rfl) hlo hlo'
  obtain ⟨y, hy, hfloor, -⟩ := boundUnder_int (show Value.lookup "maximum" (keywordsBetween lo hi) = _ from rfl) hhi hhi'
  have habove : boundUnder (keywordsBetween lo hi) "exclusiveMinimum" = .ok none := rfl
  have hbelow : boundUnder (keywordsBetween lo hi) "exclusiveMaximum" = .ok none := rfl
  have hbounds : wholeBounds (keywordsBetween lo hi) =
      .ok (some (nearestInteger lo), some (nearestInteger hi)) := by
    simp [wholeBounds, hx, hy, habove, hbelow, bind, Except.bind, tighter, hceil, hfloor, pure, Except.pure]
  have hread : ofValue strict (integerBetween lo hi) = ofBounds (keywordsBetween lo hi) true := by
    simp [integerBetween, keywordsBetween, ofValue, ofMembers, ofType, Value.lookup]
  rw [hread, ofBounds, hbounds]
  simp [nearestInteger_mono hle]

/-- Bounds that are in order and can be read lead to the pattern for the integers between them. -/
theorem Converted.language_integer {document : Value} {o : Options} {p : Progress} {root : Source}
    {ps : List Production} {lo hi : Int} (h : Converted document o p root ps)
    (hread : ofValue o.strict document = .integer (some lo) (some hi)) (hle : lo ≤ hi)
    (hlo : lo.natAbs < boundLimit) (hhi : hi.natAbs < boundLimit) (K : Meaning) :
    root.language K = Regex.signed fun z => lo ≤ z ∧ z ≤ hi := by
  have shaped : Shaped (.integer (some lo) (some hi)) := by
    refine ⟨?_, ?_, ?_⟩
    · rintro _ ⟨⟩ _ ⟨⟩
      exact hle
    · rintro _ ⟨⟩
      omega
    · rintro _ ⟨⟩
      omega
  have hsource : root ∈ source? p (Layout.ofOptions o) 0 (.integer (some lo) (some hi)) := hread ▸ h.source
  obtain rfl : (Regex.Pattern.sequence (Regex.integersBetween (some lo) (some hi))).toSource = root := by
    rw [source?] at hsource
    · exact Option.some.inj hsource
    · nofun
  have fit := fit_integers (Or.inl (Option.some_ne_none lo)) shaped
  rw [Regex.Pattern.language_toSource, Regex.Pattern.language, fit.language]
  exact congrArg Regex.signed (funext fun z => by simp [Regex.Within])

/-- A schema of integers is converted at once. -/
theorem exists_productions_integer {document : Value} {o : Options} {lo hi : Int}
    (hread : ofValue o.strict document = .integer (some lo) (some hi)) : ∃ ps, productions document o = .ok ps := by
  let source := (Regex.Pattern.sequence (Regex.integersBetween (some lo) (some hi))).toSource
  refine exists_productions_of_ran source (p := Conversion.start) ?_
  rw [hread, toSource]
  · exact Conversion.ran_pure.2 ⟨rfl, rfl⟩
  · nofun

end Schema

namespace Grammar

open Schema

/-- Two ranges of integers have the same decimal texts only if they are the same. -/
theorem eq_of_same_texts {a b lo hi : Int} (hab : a ≤ b) (hle : lo ≤ hi)
    (h : ∀ w : Bytes, (∃ z : Int, a ≤ z ∧ z ≤ b ∧ w = Utf8.ofString (toString z)) ↔
      ∃ z : Int, lo ≤ z ∧ z ≤ hi ∧ w = Utf8.ofString (toString z)) : a = lo ∧ b = hi := by
  have inj {y z : Int} (heq : Utf8.ofString (toString y) = Utf8.ofString (toString z)) : y = z :=
    Int.repr_inj.1 (String.toList_inj.1 (Utf8.encode_injective heq))
  have inside {z : Int} : a ≤ z ∧ z ≤ b ↔ lo ≤ z ∧ z ≤ hi := by
    constructor
    · rintro ⟨hza, hzb⟩
      obtain ⟨y, hy, hy', heq⟩ := (h _).1 ⟨z, hza, hzb, rfl⟩
      exact inj heq ▸ ⟨hy, hy'⟩
    · rintro ⟨hza, hzb⟩
      obtain ⟨y, hy, hy', heq⟩ := (h _).2 ⟨z, hza, hzb, rfl⟩
      exact inj heq ▸ ⟨hy, hy'⟩
  have ha := (inside (z := a)).1 ⟨le_rfl, hab⟩
  have hb := (inside (z := b)).1 ⟨hab, le_rfl⟩
  have hlo := (inside (z := lo)).2 ⟨le_rfl, hle⟩
  have hhi := (inside (z := hi)).2 ⟨hle, le_rfl⟩
  exact ⟨le_antisymm hlo.1 ha.1, le_antisymm hb.2 hhi.2⟩

/-- A schema with bounds has a grammar if the longest run of white space can be written and the doubles nearest
to the bounds are not beyond the limit. -/
theorem exists_ofSchema_integerBetween {lo hi : Int} {o : Options} (ho : o.Limited) (hle : lo ≤ hi)
    (hlo : lo.natAbs < boundLimit) (hhi : hi.natAbs < boundLimit)
    (hlo' : (nearestInteger lo).natAbs < boundLimit) (hhi' : (nearestInteger hi).natAbs < boundLimit) :
    ∃ g, ofSchema (integerBetween lo hi) o = .ok g := by
  have hread : ofValue o.strict (integerBetween lo hi) = _ := ofValue_integerBetween hle hlo hhi
    (natAbs_nearestInteger lo ▸ hlo') (natAbs_nearestInteger hi ▸ hhi')
  obtain ⟨ps, hps⟩ := exists_productions_integer hread
  exact exists_ofSchema (limited_integerBetween lo hi) ho hps

section

variable {lo hi : Int} {o : Options} {g : Grammar}

/-- A schema is refused if the double nearest to one of its bounds is beyond the limit. -/
theorem near_of_ofSchema_ok (hlo : lo.natAbs < boundLimit)
    (hhi : hi.natAbs < boundLimit) (hg : ofSchema (integerBetween lo hi) o = .ok g) :
    (nearestInteger lo).natAbs < boundLimit ∧ (nearestInteger hi).natAbs < boundLimit := by
  by_contra hnear
  rw [natAbs_nearestInteger, natAbs_nearestInteger] at hnear
  obtain ⟨cause, hcause⟩ := ofValue_integerBetween_far hlo hhi (by omega)
  obtain ⟨p, root, ps, hconverted, -⟩ := language_of_ofSchema hg
  have hsource := hconverted.source
  rw [hcause, source?] at hsource
  cases hsource

/-- A schema with bounds describes the decimal texts of the integers between the doubles nearest to its
bounds. -/
theorem mem_language_integerBetween (hle : lo ≤ hi) (hlo : lo.natAbs < boundLimit) (hhi : hi.natAbs < boundLimit)
    (hg : ofSchema (integerBetween lo hi) o = .ok g) (w : Bytes) : w ∈ g.language ↔
      ∃ z, nearestInteger lo ≤ z ∧ z ≤ nearestInteger hi ∧ w = Utf8.ofString (toString z) := by
  obtain ⟨hlo', hhi'⟩ := near_of_ofSchema_ok hlo hhi hg
  have hread : ofValue o.strict (integerBetween lo hi) = _ := ofValue_integerBetween hle hlo hhi
    (natAbs_nearestInteger lo ▸ hlo') (natAbs_nearestInteger hi ▸ hhi')
  obtain ⟨p, root, ps, hconverted, hlanguage⟩ := language_of_ofSchema hg
  rw [hlanguage, hconverted.language_integer hread (nearestInteger_mono hle) hlo' hhi']
  constructor
  · rintro ⟨text, htext, rfl⟩
    obtain ⟨z, ⟨hz, hz'⟩, rfl⟩ := Regex.mem_signed.1 htext
    exact ⟨z, hz, hz', rfl⟩
  · rintro ⟨z, hz, hz', rfl⟩
    exact ⟨_, Regex.mem_signed.2 ⟨z, ⟨hz, hz'⟩, rfl⟩, rfl⟩

end

/-- A schema with bounds describes the decimal texts of the integers between the doubles nearest to its
bounds, and so those between its bounds exactly if these are doubles, where the longest run of white space
can be written at all. -/
theorem integerBetween_describes_doubles {lo hi : Int} {o : Options} (hle : lo ≤ hi)
    (hlo : lo.natAbs < boundLimit) (hhi : hi.natAbs < boundLimit) :
    (∀ g, ofSchema (integerBetween lo hi) o = .ok g → ∀ w, w ∈ g.language ↔
      ∃ z, nearestInteger lo ≤ z ∧ z ≤ nearestInteger hi ∧ w = Utf8.ofString (toString z)) ∧
    ((∃ g, ofSchema (integerBetween lo hi) o = .ok g ∧
      ∀ w, w ∈ g.language ↔ ∃ z, lo ≤ z ∧ z ≤ hi ∧ w = Utf8.ofString (toString z)) ↔
        o.Limited ∧ nearestInteger lo = lo ∧ nearestInteger hi = hi) := by
  have describes (g : Grammar) (hg : ofSchema (integerBetween lo hi) o = .ok g) (w : Bytes) : w ∈ g.language ↔
      ∃ z, nearestInteger lo ≤ z ∧ z ≤ nearestInteger hi ∧ w = Utf8.ofString (toString z) :=
    mem_language_integerBetween hle hlo hhi hg w
  refine ⟨describes, ?_, ?_⟩
  · rintro ⟨g, hg, hexact⟩
    obtain ⟨_, _, _, hconverted, -⟩ := language_of_ofSchema hg
    exact ⟨hconverted.limited,
      eq_of_same_texts (nearestInteger_mono hle) hle fun w => (describes g hg w).symm.trans (hexact w)⟩
  · rintro ⟨ho, hlo', hhi'⟩
    obtain ⟨g, hg⟩ := exists_ofSchema_integerBetween ho hle hlo hhi (by rwa [hlo']) (by rwa [hhi'])
    refine ⟨g, hg, fun w => ?_⟩
    rw [describes g hg w, hlo', hhi']

/-- Bounds of 53 bits are kept, as for digits. -/
theorem integerBetween_describes_digits : ∃ g, ofSchema (integerBetween 0 9) .default = .ok g ∧
    ∀ w, w ∈ g.language ↔ ∃ z : Int, 0 ≤ z ∧ z ≤ 9 ∧ w = Utf8.ofString (toString z) :=
  (integerBetween_describes_doubles (show (0 : Int) ≤ 9 by decide) (by decide) (by decide)).2.2
    ⟨limited_default, nearestInteger_of_le (by decide), nearestInteger_of_le (by decide)⟩

/-- The only integer between two equal bounds is not accepted if the double nearest to it is another. -/
theorem integerBetween_misses_bound : ∃ g,
    ofSchema (integerBetween 9007199254740993 9007199254740993) .default = .ok g ∧
      Utf8.ofString (toString (9007199254740993 : Int)) ∉ g.language := by
  have hbound : nearestInteger 9007199254740993 = 9007199254740992 := by decide
  obtain ⟨g, hg⟩ := exists_ofSchema_integerBetween limited_default (le_refl (9007199254740993 : Int))
    (by decide) (by decide) (by rw [hbound]; decide) (by rw [hbound]; decide)
  have hmem := mem_language_integerBetween le_rfl (by decide) (by decide) hg
  refine ⟨g, hg, fun h => ?_⟩
  obtain ⟨z, hz, hz', heq⟩ := (hmem _).1 h
  rw [hbound] at hz hz'
  obtain rfl : z = 9007199254740992 := le_antisymm hz' hz
  exact absurd heq (by decide)

end Grammar

end ConstrainedDecoding
