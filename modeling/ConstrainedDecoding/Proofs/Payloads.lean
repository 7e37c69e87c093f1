import ConstrainedDecoding.Payload
import ConstrainedDecoding.Proofs.JsonReading

/-!
# Parts of payloads

Words and lists of parts are read back as they are written, and what is read as a word fits 32 bits.
-/
namespace ConstrainedDecoding

open Json (Value)

theorem Option.mapM_map_eq_some {α β γ : Type} {f : α → β} {g : β → Option γ} {h : α → γ} {as : List α}
    (hg : ∀ a ∈ as, g (f a) = some (h a)) : (as.map f).mapM g = some (as.map h) := by
  induction as with
  | nil => rfl
  | cons a as ih =>
    obtain ⟨ha, has⟩ := List.forall_mem_cons.1 hg
    simp [List.mapM_cons, ha, ih has]

theorem Option.forall_of_mapM {α β : Type} {f : α → Option β} {P : β → Prop} (h : ∀ a b, f a = some b → P b) :
    ∀ {as : List α} {bs : List β}, as.mapM f = some bs → ∀ b ∈ bs, P b := by
  intro as
  induction as with
  | nil =>
    rintro _ ⟨⟩
    simp
  | cons a as ih =>
    intro bs hbs
    simp only [List.mapM_cons, Option.bind_eq_bind, Option.bind_eq_some_iff, Option.pure_def,
      Option.some.injEq] at hbs
    obtain ⟨b, hb, bs, hbs, rfl⟩ := hbs
    exact List.forall_mem_cons.2 ⟨h a b hb, ih hbs⟩

namespace Payload

/-! ## Words -/

/-- The numbers of 32 bits. -/
def Fits32 (n : Nat) : Prop := n < 0x100000000

instance (n : Nat) : Decidable (Fits32 n) := inferInstanceAs (Decidable (n < 0x100000000))

theorem Fits32.lt {n : Nat} (h : Fits32 n) : n < 0x10000000000000000 := lt_trans h (by decide)

theorem fits32_toNat (w : UInt32) : Fits32 w.toNat := w.toNat_lt

theorem below?_nat {bound n : Nat} (h : n < bound) : below? bound (.nat n) = some n := by
  simp [below?, Value.nat, h]

theorem word?_nat {n : Nat} (h : Fits32 n) : word? (.nat n) = some n := below?_nat h

theorem size?_nat {n : Nat} (h : n < 0x10000000000000000) : size? (.nat n) = some n := below?_nat h

theorem lt_of_below? {bound n : Nat} {v : Value} (h : below? bound v = some n) : n < bound := by
  unfold below? at h
  split at h
  · split at h
    · obtain rfl := Option.some.inj h
      omega
    · cases h
  · cases h

theorem fits32_of_word? {n : Nat} {v : Value} (h : word? v = some n) : Fits32 n := lt_of_below? h

theorem kept_word {depth n : Nat} (h : Fits32 n) : Value.Kept depth (.nat n) := Value.kept_nat h.lt

/-! ## Lists -/

section

variable {α : Type} {part : Value → Option α}

theorem list?_map {f : α → Value} {as : List α} (h : ∀ a ∈ as, part (f a) = some a) :
    list? part (.array (as.map f)) = some as := by
  have := Option.mapM_map_eq_some h
  rwa [List.map_id'] at this

theorem forall_of_list? {P : α → Prop} (h : ∀ v a, part v = some a → P a) {v : Value} {as : List α}
    (hv : list? part v = some as) : ∀ a ∈ as, P a := by
  unfold list? at hv
  split at hv
  · exact Option.forall_of_mapM h hv
  · cases hv

theorem kept_array {depth : Nat} {f : α → Value} {as : List α} (h : ∀ a ∈ as, (f a).Kept depth) :
    Value.Kept (depth + 1) (.array (as.map f)) := .array (List.forall_mem_map.2 h)

theorem optional?_nat (part : Value → Option α) (n : Nat) :
    optional? part (some (.nat n)) = (part (.nat n)).map some := rfl

theorem optional?_array (part : Value → Option α) (items : List Value) :
    optional? part (some (.array items)) = (part (.array items)).map some := rfl

theorem exists_of_required? {v : Option Value} {a : α} (h : required? part v = some a) :
    ∃ w, v = some w ∧ part w = some a := Option.bind_eq_some_iff.1 h

theorem of_optional? {P : α → Prop} (h : ∀ v a, part v = some a → P a) {v : Option Value} {a : Option α}
    (hv : optional? part v = some a) : ∀ x ∈ a, P x := by
  unfold optional? at hv
  split at hv
  · obtain rfl := Option.some.inj hv
    simp
  · obtain rfl := Option.some.inj hv
    simp
  · obtain ⟨x, hx, rfl⟩ := Option.map_eq_some_iff.1 hv
    rintro _ ⟨⟩
    exact h _ _ hx

end

/-! ## Payloads -/

/-- The text of a payload of the current version is read as the payload. -/
theorem parse_text {v : Value} (h : v.Kept Json.depthLimit)
    (hversion : v.member? "version" = some (.string payloadVersion)) : parse v.text = .ok v := by
  simp [parse, Json.parse?_text h, hversion]

end Payload

end ConstrainedDecoding
