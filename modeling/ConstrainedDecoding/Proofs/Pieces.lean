import ConstrainedDecoding.Automaton.Dfa
import Mathlib.Data.List.Basic
import Mathlib.Order.Nat

/-!
# Ranges of bytes on which the same edges can be taken

Between neighbouring cut points no edge starts or ends, so a byte of a piece is read by the edges
that read the whole piece, and each byte that an edge reads lies in a piece.
-/
namespace ConstrainedDecoding.Nfa

/-! ## Ascending lists -/

theorem ascending_pairwise (l : List Nat) : (ascending l).Pairwise (· < ·) :=
  Std.TreeSet.ordered_toList.imp fun h => Nat.compare_eq_lt.1 h

@[simp] theorem mem_ascending {l : List Nat} {x : Nat} : x ∈ ascending l ↔ x ∈ l := by
  simp [ascending, Std.TreeSet.mem_ofList]

/-! ## Pieces -/

/-- An edge reads a byte, given as a number. -/
def ReadsAt (edges : List (UInt8 × UInt8 × StateId)) (b : Nat) (t : StateId) : Prop :=
  ∃ lo hi, (lo, hi, t) ∈ edges ∧ lo.toNat ≤ b ∧ b ≤ hi.toNat

/-- A piece holds a byte. -/
def Piece.Holds (p : Piece) (b : Nat) : Prop := p.lo ≤ b ∧ b ≤ p.hi

/-- Pieces that hold the bytes that edges read, each with the targets at its bytes. Each piece leads
somewhere. -/
structure Splits (edges : List (UInt8 × UInt8 × StateId)) (ps : List Piece) (P : Nat → Prop) :
    Prop where
  le : ∀ p ∈ ps, p.lo ≤ p.hi
  targets : ∀ p ∈ ps, ∀ b, p.Holds b → ∀ t, t ∈ p.targets ↔ ReadsAt edges b t
  covers : ∀ b t, P b → ReadsAt edges b t → ∃ p ∈ ps, p.Holds b
  nonempty : ∀ p ∈ ps, p.targets ≠ []

theorem mem_targetsOn {edges : List (UInt8 × UInt8 × StateId)} {lo hi : Nat} {t : StateId} :
    t ∈ targetsOn edges lo hi ↔
      ∃ a b, (a, b, t) ∈ edges ∧ a.toNat ≤ lo ∧ hi ≤ b.toNat := by
  simp only [targetsOn, mem_ascending, List.mem_filterMap, Option.ite_none_right_eq_some,
    Option.some.injEq]
  constructor
  · rintro ⟨⟨a, b, t'⟩, he, h, rfl⟩
    exact ⟨a, b, he, h⟩
  · rintro ⟨a, b, he, h⟩
    exact ⟨(a, b, t), he, h, rfl⟩

/-- Edges start and end at cut points alone. -/
def CutAt (edges : List (UInt8 × UInt8 × StateId)) (cut : Nat → Prop) : Prop :=
  ∀ e ∈ edges, cut e.1.toNat ∧ cut (e.2.1.toNat + 1)

theorem CutAt.imp {edges : List (UInt8 × UInt8 × StateId)} {cut cut' : Nat → Prop}
    (h : CutAt edges cut) (himp : ∀ x, cut x → cut' x) : CutAt edges cut' :=
  fun e he => ⟨himp _ (h e he).1, himp _ (h e he).2⟩

/-- Between two places without a cut point in between, all bytes are read by the same edges. -/
private theorem mem_targetsOn_iff_readsAt {edges : List (UInt8 × UInt8 × StateId)} {p q b : Nat}
    (apart : CutAt edges fun x => x ≤ p ∨ q ≤ x) (hp : p ≤ b) (hq : b < q) {t : StateId} :
    t ∈ targetsOn edges p (q - 1) ↔ ReadsAt edges b t := by
  rw [mem_targetsOn]
  constructor
  · rintro ⟨lo, hi, he, hl, hh⟩
    exact ⟨lo, hi, he, by omega, by omega⟩
  · rintro ⟨lo, hi, he, hl, hh⟩
    have h₁ : lo.toNat ≤ p ∨ q ≤ lo.toNat := (apart _ he).1
    have h₂ : hi.toNat + 1 ≤ p ∨ q ≤ hi.toNat + 1 := (apart _ he).2
    exact ⟨lo, hi, he, by omega, by omega⟩

/-- From the last cut point on, no edge reads a byte. -/
private theorem splits_last {edges : List (UInt8 × UInt8 × StateId)} {p : Nat} (apart : CutAt edges fun x => x ≤ p) :
    Splits edges [] fun b => p ≤ b where
  le := by simp
  targets := by simp
  covers := by
    rintro b t hpb ⟨lo, hi, he, -, hb⟩
    have : hi.toNat + 1 ≤ p := (apart _ he).2
    omega
  nonempty := by simp

/-- The bytes from a cut point to the next are a piece, if some edge reads them. -/
private theorem Splits.add {edges : List (UInt8 × UInt8 × StateId)} {ps : List Piece} {p q : Nat}
    (h : Splits edges ps fun b => q ≤ b) (hpq : p < q) (apart : CutAt edges fun x => x ≤ p ∨ q ≤ x) :
    Splits edges (if (targetsOn edges p (q - 1)).isEmpty then ps else ⟨p, q - 1, targetsOn edges p (q - 1)⟩ :: ps)
      fun b => p ≤ b := by
  split
  · rename_i hempty
    refine ⟨h.le, h.targets, fun b t hb ht => ?_, h.nonempty⟩
    rcases Nat.lt_or_ge b q with hbq | hbq
    · have := (mem_targetsOn_iff_readsAt apart hb hbq).2 ht
      rw [List.isEmpty_iff.1 hempty] at this
      simp at this
    · exact h.covers b t hbq ht
  · rename_i hreads
    refine ⟨?_, ?_, fun b t hb ht => ?_, List.forall_mem_cons.2 ⟨fun hnil => ?_, h.nonempty⟩⟩
    · exact List.forall_mem_cons.2 ⟨by simp only; omega, h.le⟩
    · refine List.forall_mem_cons.2 ⟨fun b hb t => ?_, h.targets⟩
      simp only [Piece.Holds] at hb
      exact mem_targetsOn_iff_readsAt apart hb.1 (by omega)
    · rcases Nat.lt_or_ge b q with hbq | hbq
      · exact ⟨_, List.mem_cons_self, hb, by simp only; omega⟩
      · obtain ⟨piece, hpiece, hholds⟩ := h.covers b t hbq ht
        exact ⟨piece, List.mem_cons_of_mem _ hpiece, hholds⟩
    · exact hreads (List.isEmpty_iff.2 hnil)

/-- The pieces between cut points in ascending order, the first of which is `p`, hold the bytes from `p` on. All
cut points that are no longer listed lie before `p`. -/
private theorem splits_piecesBetween {edges : List (UInt8 × UInt8 × StateId)} (cuts : List Nat) : ∀ p : Nat,
    (p :: cuts).Pairwise (· < ·) → (CutAt edges fun x => x ∈ cuts ∨ x ≤ p) →
      Splits edges (piecesBetween edges (p :: cuts)) fun b => p ≤ b := by
  induction cuts with
  | nil => exact fun p _ hcut => splits_last (hcut.imp fun x => Or.rec (fun h => absurd h List.not_mem_nil) id)
  | cons q rest ih =>
    intro p hsorted hcut
    obtain ⟨hp, hrest⟩ := List.pairwise_cons.1 hsorted
    have hpq : p < q := hp q (by simp)
    have hq : ∀ c ∈ q :: rest, q ≤ c := List.forall_mem_cons.2 ⟨le_rfl, fun c hc => (List.rel_of_pairwise_cons hrest hc).le⟩
    have apart : CutAt edges fun x => x ≤ p ∨ q ≤ x := hcut.imp fun x hx => hx.symm.imp_right (hq x)
    have later : CutAt edges fun x => x ∈ rest ∨ x ≤ q := by
      refine hcut.imp fun x hx => ?_
      rcases hx with hx | hx
      · rcases List.mem_cons.1 hx with rfl | hx
        · exact Or.inr le_rfl
        · exact Or.inl hx
      · exact Or.inr (hx.trans hpq.le)
    rw [piecesBetween]
    exact (ih q hrest later).add hpq apart

/-- Pieces come in order, and start at a cut point. -/
private theorem pairwise_piecesBetween (edges : List (UInt8 × UInt8 × StateId)) (cuts : List Nat)
    (hsorted : cuts.Pairwise (· < ·)) :
    (piecesBetween edges cuts).Pairwise (fun p q => p.hi < q.lo) ∧
      ∀ x, (∀ c ∈ cuts, x ≤ c) → ∀ p ∈ piecesBetween edges cuts, x ≤ p.lo := by
  fun_induction piecesBetween edges cuts with
  | case1 p q rest targets _ ih =>
    obtain ⟨hp, hrest⟩ := List.pairwise_cons.1 hsorted
    obtain ⟨ordered, start⟩ := ih hrest
    exact ⟨ordered, fun x hx => start x fun c hc => hx c (List.mem_cons_of_mem _ hc)⟩
  | case2 p q rest targets _ ih =>
    obtain ⟨hp, hrest⟩ := List.pairwise_cons.1 hsorted
    obtain ⟨ordered, start⟩ := ih hrest
    have hpq : p < q := hp q List.mem_cons_self
    have after : ∀ r ∈ piecesBetween edges (q :: rest), q ≤ r.lo :=
      start q fun c hc => (List.mem_cons.1 hc).elim (fun h => h.ge)
        fun hc => (List.rel_of_pairwise_cons hrest hc).le
    refine ⟨List.pairwise_cons.2 ⟨fun r hr => ?_, ordered⟩, fun x hx => ?_⟩
    · have := after r hr
      simp only
      omega
    · refine List.forall_mem_cons.2 ⟨hx p List.mem_cons_self, fun r hr => ?_⟩
      exact (hx q (by simp)).trans (after r hr)
  | case3 cuts => simp

/-- Joining keeps pieces in order, after what they come after. -/
private theorem pairwise_joinPieces (ps : List Piece) (h : ps.Pairwise fun p q => p.hi < q.lo) :
    (joinPieces ps).Pairwise (fun p q => p.hi < q.lo) ∧
      ∀ x, (∀ p ∈ ps, x < p.lo) → ∀ q ∈ joinPieces ps, x < q.lo := by
  induction ps with
  | nil => simp [joinPieces]
  | cons p ps ih =>
    obtain ⟨hp, hps⟩ := List.pairwise_cons.1 h
    obtain ⟨ordered, start⟩ := ih hps
    rw [joinPieces]
    split
    · exact ⟨List.pairwise_singleton _ _, fun x hx => List.forall_mem_singleton.2 (hx p List.mem_cons_self)⟩
    · rename_i q rest heq
      rw [heq] at ordered start
      split
      · refine ⟨List.pairwise_cons.2 (List.pairwise_cons.1 ordered), fun x hx => ?_⟩
        obtain ⟨hxp, hxps⟩ := List.forall_mem_cons.1 hx
        exact List.forall_mem_cons.2 ⟨hxp, (List.forall_mem_cons.1 (start x hxps)).2⟩
      · refine ⟨List.pairwise_cons.2 ⟨start p.hi hp, ordered⟩, fun x hx => ?_⟩
        obtain ⟨hxp, hxps⟩ := List.forall_mem_cons.1 hx
        exact List.forall_mem_cons.2 ⟨hxp, start x hxps⟩

/-- Pieces come in order and do not overlap. -/
theorem pieces_pairwise (edges : List (UInt8 × UInt8 × StateId)) :
    (pieces edges).Pairwise fun p q => p.hi < q.lo :=
  (pairwise_joinPieces _ (pairwise_piecesBetween edges _ (ascending_pairwise _)).1).1

/-- Joining keeps what is held, with its targets. -/
private theorem joinPieces_spec (ps : List Piece) (h : ∀ p ∈ ps, p.lo ≤ p.hi) :
    (∀ q ∈ joinPieces ps, q.lo ≤ q.hi ∧
      ∀ b, q.Holds b → ∃ p ∈ ps, p.Holds b ∧ p.targets = q.targets) ∧
    ∀ p ∈ ps, ∀ b, p.Holds b → ∃ q ∈ joinPieces ps, q.Holds b ∧ q.targets = p.targets := by
  induction ps with
  | nil => simp [joinPieces]
  | cons p ps ih =>
    obtain ⟨hp, hps⟩ := List.forall_mem_cons.1 h
    obtain ⟨ihq, ihp⟩ := ih hps
    rw [joinPieces]
    split
    · rename_i hnil
      simp only [hnil, List.not_mem_nil, false_and, exists_false, imp_false] at ihp
      refine ⟨List.forall_mem_singleton.2 ⟨hp, fun b hb => ⟨p, by simp, hb, rfl⟩⟩,
        List.forall_mem_cons.2 ⟨fun b hb => ⟨p, by simp, hb, rfl⟩, fun q hq b hb => ?_⟩⟩
      exact absurd hb (ihp q hq b)
    · rename_i q rest heq
      simp only [heq, List.forall_mem_cons, List.exists_mem_cons_iff] at ihq ihp
      obtain ⟨⟨hq, hqholds⟩, hrest⟩ := ihq
      split
      · rename_i hjoin
        obtain ⟨htargets, hnext⟩ := hjoin
        simp only [List.forall_mem_cons, List.exists_mem_cons_iff]
        refine ⟨⟨⟨by omega, fun b hb => ?_⟩, fun r hr => ⟨(hrest r hr).1, fun b hb =>
          Or.inr ((hrest r hr).2 b hb)⟩⟩, fun b hb => ?_, fun r hr b hb => ?_⟩
        · simp only [Piece.Holds] at hb
          rcases Nat.lt_or_ge b q.lo with hlt | hge
          · exact Or.inl ⟨⟨hb.1, by omega⟩, trivial⟩
          · obtain ⟨r, hr, hrb, hrt⟩ := hqholds b ⟨hge, hb.2⟩
            exact Or.inr ⟨r, hr, hrb, hrt.trans htargets.symm⟩
        · exact Or.inl ⟨⟨hb.1, by have := hb.2; simp only; omega⟩, trivial⟩
        · rcases ihp r hr b hb with ⟨hqb, hqt⟩ | hrest'
          · exact Or.inl ⟨⟨by have := hqb.1; simp only; omega, hqb.2⟩, htargets.trans hqt⟩
          · exact Or.inr hrest'
      · simp only [List.forall_mem_cons, List.exists_mem_cons_iff]
        exact ⟨⟨⟨hp, fun b hb => Or.inl ⟨hb, trivial⟩⟩, ⟨hq, fun b hb => Or.inr (hqholds b hb)⟩,
          fun r hr => ⟨(hrest r hr).1, fun b hb => Or.inr ((hrest r hr).2 b hb)⟩⟩,
          fun b hb => Or.inl ⟨hb, trivial⟩, fun r hr b hb => Or.inr (ihp r hr b hb)⟩

theorem splits_joinPieces {edges : List (UInt8 × UInt8 × StateId)} {P : Nat → Prop}
    {ps : List Piece} (h : Splits edges ps P) : Splits edges (joinPieces ps) P := by
  obtain ⟨hq, hp⟩ := joinPieces_spec ps h.le
  refine ⟨fun q hmem => (hq q hmem).1, fun q hmem b hb t => ?_, fun b t hP ht => ?_,
    fun q hmem => ?_⟩
  · obtain ⟨p, hpmem, hpb, htargets⟩ := (hq q hmem).2 b hb
    rw [← htargets]
    exact h.targets p hpmem b hpb t
  · obtain ⟨p, hpmem, hpb⟩ := h.covers b t hP ht
    obtain ⟨q, hqmem, hqb, -⟩ := hp p hpmem b hpb
    exact ⟨q, hqmem, hqb⟩
  · obtain ⟨p, hpmem, -, htargets⟩ := (hq q hmem).2 q.lo ⟨le_rfl, (hq q hmem).1⟩
    exact htargets ▸ h.nonempty p hpmem

/-- The pieces of edges hold the bytes that the edges read, each with the targets at its bytes. -/
theorem splits_pieces (edges : List (UInt8 × UInt8 × StateId)) :
    Splits edges (pieces edges) fun _ => True := by
  have cut : CutAt edges fun x => x ∈ cutsOf edges := by
    intro e he
    simp only [cutsOf, mem_ascending, List.mem_flatMap]
    exact ⟨⟨e, he, by simp⟩, ⟨e, he, by simp⟩⟩
  have sorted : (cutsOf edges).Pairwise (· < ·) := ascending_pairwise _
  refine splits_joinPieces ?_
  cases hcuts : cutsOf edges with
  | nil =>
    -- without cut points there are no edges
    rw [hcuts] at cut
    refine ⟨by simp [piecesBetween], by simp [piecesBetween], ?_, by simp [piecesBetween]⟩
    rintro b t - ⟨lo, hi, he, -⟩
    exact absurd (cut _ he).1 List.not_mem_nil
  | cons p cuts =>
    rw [hcuts] at cut sorted
    have hp : ∀ c ∈ p :: cuts, p ≤ c :=
      List.forall_mem_cons.2 ⟨le_rfl, fun c hc => (List.rel_of_pairwise_cons sorted hc).le⟩
    have h := splits_piecesBetween cuts p sorted (cut.imp fun x hx => by
      rcases List.mem_cons.1 hx with rfl | hx
      · exact Or.inr le_rfl
      · exact Or.inl hx)
    refine ⟨h.le, h.targets, fun b t _ ht => h.covers b t ?_ ht, h.nonempty⟩
    obtain ⟨lo, hi, he, hl, -⟩ := ht
    exact (hp _ (cut _ he).1).trans hl

end ConstrainedDecoding.Nfa
