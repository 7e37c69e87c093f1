import ConstrainedDecoding.Proofs.Texts
import Mathlib.Data.Finset.Card

/-!
# Levels and items

The states that are met at a level are places that can be reached in the text. If no rule is left out
because it would be nested too deeply, all places that can be reached are met, so that the stack
reads the texts of the grammar and no other ones. No rule is left out if rules may be nested deeply
enough for the length of the text. All this holds for each way to build next levels from what a byte
leads to.
-/
namespace ConstrainedDecoding.Stack

open Work

variable {c : Compiled} {maxDepth : Nat} {next : Stack → UInt8 → Work} {w : Bytes}

/-- What waits at a level waits for a rule that a state of that level calls. -/
private theorem caller_of_waiting (hc : c.Regular) (builds : Builds c maxDepth next) {p : Nat}
    (hp : p ≤ w.length) {u : Work} (f : Founded c maxDepth (belowBy c maxDepth next (w.take p)) u)
    {q : Nat} {x : RuleId × State} (hx : x ∈ u.waiting (belowBy c maxDepth next (w.take p)) q) : ∃ s t,
      (q = p ∧ s ∈ u.queue ∨ q < p ∧ s ∈ (workBy c maxDepth next (w.take q)).queue) ∧
        (x.1, t) ∈ (c.table s.rule).callsOf s.state ∧ x.2 = { s with state := t } := by
  have size : (belowBy c maxDepth next (w.take p)).size = p := by simp [hp]
  unfold waiting at hx
  split at hx
  · rename_i hq
    obtain ⟨s, hs, t, -, call, hxs⟩ := f.returns x hx
    exact ⟨s, t, Or.inl ⟨hq.trans size, hs⟩, call, hxs⟩
  · split at hx
    · rename_i l hl
      have hq : q < p := size ▸ (Array.getElem?_eq_some_iff.1 hl).1
      rw [getElem?_belowBy _ (by simp; omega), List.take_take, Nat.min_eq_left hq.le] at hl
      obtain rfl := Option.some.inj hl
      obtain ⟨s, hs, t, -, call, hxs⟩ := (workBy_spec hc builds (w.take q)).founded.returns x hx
      exact ⟨s, t, Or.inr ⟨hq, hs⟩, call, hxs⟩
    · simp at hx

/-! ## What is met can be reached -/

/-- The states that are met at a level can be reached if this is so at all levels before. -/
private theorem item_of_changes (hc : c.Regular) (builds : Builds c maxDepth next) {p : Nat}
    (hp : p ≤ w.length)
    (before : ∀ q < p, ∀ k ∈ (workBy c maxDepth next (w.take q)).seen, Item c w q k)
    (seed : ∀ s, SeedsBy c maxDepth next (w.take p) s → Item c w p s.key) {v : Work}
    (h : Changes c maxDepth (belowBy c maxDepth next (w.take p)) (SeedsBy c maxDepth next (w.take p)) empty v) :
    ∀ k ∈ v.seen, Item c w p k := by
  have size : (belowBy c maxDepth next (w.take p)).size = p := by simp [hp]
  induction h with
  | refl => simp [empty]
  | @tail u v h change ih =>
    have f : Founded c maxDepth (belowBy c maxDepth next (w.take p)) u := Changes.founded h
    have added {s : State} (item : Item c w p s.key) : ∀ k ∈ u.seen.insert s.key, Item c w p k := by
      intro k hk
      rcases Std.TreeSet.mem_insert.1 hk with hk | hk
      · obtain rfl : s.key = k := by simpa using hk
        exact item
      · exact ih k hk
    cases change with
    | seed hs | pass hs => exact added (seed _ hs)
    | wait | finish | stop | scan => exact ih
    | @start s r t mem shallow call =>
      refine added ?_
      rw [State.key, size]
      exact (ih _ (f.key_mem mem)).call call
    | @resume q x ended mem =>
      obtain ⟨s', hs', hr, he, accepts⟩ := ended
      obtain ⟨s, t, hs, call, hxs⟩ := caller_of_waiting hc builds hp f mem
      have item : Item c w q s.key := by
        rcases hs with ⟨rfl, hs⟩ | ⟨hq, hs⟩
        exacts [ih _ (f.key_mem hs), before q hq _ ((workBy_spec hc builds _).founded.key_mem hs)]
      have ended : Item c w p (x.1, s'.state, some q) := by
        have := ih _ (f.key_mem hs')
        rwa [State.key, hr, he] at this
      refine added ?_
      rw [hxs]
      exact item.resume call ended (hr ▸ accepts)

/-- The states that are met at a level can be reached. -/
theorem item_of_mem_seen (hc : c.Regular) (builds : Builds c maxDepth next) {p : Nat} (hp : p ≤ w.length) :
    ∀ k ∈ (workBy c maxDepth next (w.take p)).seen, Item c w p k := by
  induction p using Nat.strongRecOn with
  | _ p ih =>
    refine item_of_changes hc builds hp (fun q hq => ih q hq (by omega)) ?_
      (workBy_spec hc builds (w.take p)).changes
    cases p with
    | zero =>
      rintro s rfl
      exact .root
    | succ p =>
      have hb : w[p]? = some w[p] := by simp
      intro s' hs'
      rw [List.take_add_one, hb, Option.toList_some, seedsBy_append] at hs'
      obtain ⟨s, hs, t, ht, rfl⟩ := hs'
      have item := ih p (by omega) (by omega) s.key
        ((workBy_spec hc builds (w.take p)).founded.scans s (by simpa using hs)).1
      exact item.scan hb ht

/-! ## How deep rules are nested -/

/-- How many rules were entered at a level under construction. -/
def entries (c : Compiled) (level : Nat) (v : Work) : Nat :=
  ((Finset.range c.tables.size).filter fun r => (r, 0, some level) ∈ v.seen).card

theorem entries_le (c : Compiled) (level : Nat) (v : Work) : entries c level v ≤ c.tables.size :=
  (Finset.card_filter_le _ _).trans_eq (Finset.card_range _)

theorem entries_mono {level : Nat} {v v' : Work} (h : Within v v') :
    entries c level v ≤ entries c level v' :=
  Finset.card_le_card fun r hr => by
    simp only [Finset.mem_filter] at hr ⊢
    exact ⟨hr.1, h.seen _ hr.2⟩

/-- Entering a rule that was not entered before adds to the entries. -/
theorem entries_lt {level r : Nat} {v v' : Work} (h : Within v v') (hr : r < c.tables.size)
    (new : (r, 0, some level) ∉ v.seen) (seen : (r, 0, some level) ∈ v'.seen) :
    entries c level v < entries c level v' := by
  refine Finset.card_lt_card ((Finset.ssubset_iff_of_subset fun r hr => ?_).2 ⟨r, ?_, ?_⟩)
  · simp only [Finset.mem_filter] at hr ⊢
    exact ⟨hr.1, h.seen _ hr.2⟩
  · simp [hr, seen]
  · simp [new]

/-- A state is nested no deeper than there are rules up to the level at which its rule was entered. -/
def State.Shallow (c : Compiled) (s : State) : Prop :=
  s.depth ≤ s.entered.elim 0 fun q => c.tables.size * (q + 1)

/-- A state at a level under construction is nested no deeper than rules were entered so far. -/
def Bounded (c : Compiled) (level : Nat) (v : Work) (s : State) : Prop :=
  s.Shallow c ∧
    (s.entered = some level → s.depth ≤ c.tables.size * level + entries c level v)

theorem Bounded.mono {level : Nat} {v v' : Work} (h : Within v v') {s : State}
    (bounded : Bounded c level v s) : Bounded c level v' s :=
  ⟨bounded.1, fun he => (bounded.2 he).trans (Nat.add_le_add_left (entries_mono h) _)⟩

/-- A state that was entered at a level or before is nested no deeper than rules were entered. -/
theorem Bounded.le {level : Nat} {v : Work} {s : State} (bounded : Bounded c level v s)
    (before : s.Before c (level + 1)) : s.depth ≤ c.tables.size * level + entries c level v := by
  obtain ⟨shallow, here⟩ := bounded
  cases he : s.entered with
  | none =>
    simp only [State.Shallow, he, Option.elim_none] at shallow
    omega
  | some q =>
    simp only [State.Shallow, he, Option.elim_some] at shallow
    rcases Nat.lt_succ_iff_lt_or_eq.1 (before.entered_lt q he) with hq | rfl
    · exact (shallow.trans (Nat.mul_le_mul_left _ hq)).trans (Nat.le_add_right _ _)
    · exact here he

/-- A property of the states of a queue and of others is kept when a state that has it is added to the queue. -/
private theorem forall_push_queue {queue others : Array State} {x : State} {P : State → Prop}
    (h : ∀ s, s ∈ queue ∨ s ∈ others → P s) (hx : P x) : ∀ s, s ∈ queue.push x ∨ s ∈ others → P s := by
  rintro s (hs | hs)
  · rcases Array.mem_push.1 hs with hs | rfl
    exacts [h s (Or.inl hs), hx]
  · exact h s (Or.inr hs)

private theorem forall_push_others {queue others : Array State} {x : State} {P : State → Prop}
    (h : ∀ s, s ∈ queue ∨ s ∈ others → P s) (hx : P x) : ∀ s, s ∈ queue ∨ s ∈ others.push x → P s :=
  fun s hs => forall_push_queue (fun s hs => h s hs.symm) hx s hs.symm

/-- A rule that is entered at a level counts among its entries, so the level stays within bounds. -/
private theorem bounded_start {p r : Nat} {u : Work} {s₀ start : State} (bounded : Bounded c p u s₀)
    (before : s₀.Before c (p + 1)) (hr : r < c.tables.size) (hstart : start = ⟨r, 0, some p, s₀.depth + 1⟩)
    (new : (r, 0, some p) ∉ u.seen) : Bounded c p (u.add start) start := by
  have lt : entries c p u < entries c p (u.add start) :=
    entries_lt (within_add u start) hr new (by simp [add, State.key, hstart])
  have caller := bounded.le before
  have le : start.depth ≤ c.tables.size * p + entries c p (u.add start) := by
    rw [hstart] at lt ⊢
    simp only
    omega
  have all : start.depth ≤ c.tables.size * (p + 1) := le.trans (Nat.add_le_add_left (entries_le c p _) _)
  exact ⟨by simpa [State.Shallow, hstart] using all, fun _ => le⟩

/-- The states of a level are nested no deeper than rules were entered if this is so at all levels
before. -/
private theorem bounded_of_changes (hc : c.Regular) (builds : Builds c maxDepth next) {p : Nat}
    (hp : p ≤ w.length)
    (before : ∀ q < p, ∀ s ∈ (workBy c maxDepth next (w.take q)).queue, s.Shallow c)
    (seed : ∀ s, SeedsBy c maxDepth next (w.take p) s → s.Shallow c) {v : Work}
    (h : Changes c maxDepth (belowBy c maxDepth next (w.take p)) (SeedsBy c maxDepth next (w.take p)) empty v) :
    ∀ s, s ∈ v.queue ∨ s ∈ v.scannable → Bounded c p v s := by
  have size : (belowBy c maxDepth next (w.take p)).size = p := by simp [hp]
  have seed_before {s : State} (hs : SeedsBy c maxDepth next (w.take p) s) : s.Before c p := by
    simpa [hp] using hs.before hc builds
  have seeded {v : Work} {s : State} (hs : SeedsBy c maxDepth next (w.take p) s) : Bounded c p v s :=
    ⟨seed s hs, fun he => absurd ((seed_before hs).entered_lt p he) (lt_irrefl p)⟩
  induction h with
  | refl => simp [empty]
  | @tail u v h change ih =>
    have f : Founded c maxDepth (belowBy c maxDepth next (w.take p)) u := Changes.founded h
    have placed : Placed c (belowBy c maxDepth next (w.take p)) u :=
      Changes.placed hc (inRange_belowBy hc builds _) (fun s hs => by simpa [hp] using seed_before hs) h
    have ih' (s : State) (hs : s ∈ u.queue ∨ s ∈ u.scannable) : Bounded c p v s :=
      (ih s hs).mono change.within
    cases change with
    | seed hs => exact forall_push_queue ih' (seeded hs)
    | pass hs => exact forall_push_others ih' (seeded hs)
    | wait | finish | stop => exact ih'
    | scan mem => exact forall_push_others ih' (ih' _ (Or.inl mem))
    | @start s₀ r t mem shallow call new =>
      have hr : r < c.tables.size :=
        ((hc.table _ (placed.queue s₀ mem).rule_lt).call_lt _ _ _ call).1
      exact forall_push_queue ih' (bounded_start (ih s₀ (Or.inl mem)) (size ▸ placed.queue s₀ mem) hr
        (by rw [size]) (size ▸ new))
    | @resume q x ended mem =>
      obtain ⟨s₀, t, hs₀, -, hxs⟩ := caller_of_waiting hc builds hp f mem
      refine forall_push_queue ih' ?_
      generalize u.add x.2 = v at ih' ⊢
      rw [hxs]
      rcases hs₀ with ⟨-, hs₀⟩ | ⟨hq, hs₀⟩
      · exact ih' s₀ (Or.inl hs₀)
      · refine ⟨before q hq s₀ hs₀, fun he => ?_⟩
        have := ((workBy_spec hc builds (w.take q)).placed.queue s₀ hs₀).entered_lt p he
        simp at this
        omega

/-- Rules are nested no deeper than there are rules for each level. -/
theorem shallow_of_mem (hc : c.Regular) (builds : Builds c maxDepth next) {p : Nat}
    (hp : p ≤ w.length) (s : State) (hs : s ∈ (workBy c maxDepth next (w.take p)).queue ∨
      s ∈ (workBy c maxDepth next (w.take p)).scannable) :
    s.Shallow c := by
  induction p using Nat.strongRecOn generalizing s with
  | _ p ih =>
    refine (bounded_of_changes hc builds hp (fun q hq s hs => ih q hq (by omega) s (Or.inl hs)) ?_
      (workBy_spec hc builds (w.take p)).changes s hs).1
    cases p with
    | zero =>
      rintro s rfl
      exact Nat.zero_le _
    | succ p =>
      have hb : w[p]? = some w[p] := by simp
      intro s' hs'
      rw [List.take_add_one, hb, Option.toList_some, seedsBy_append] at hs'
      obtain ⟨s, hs, t, ht, rfl⟩ := hs'
      exact ih p (by omega) (by omega) s (Or.inr (by simpa using hs))

/-- No rule is too deep for a text if rules may be nested as deeply as there are rules for each of its
levels. -/
theorem depth_lt (hc : c.Regular) (builds : Builds c maxDepth next)
    (hdepth : c.tables.size * (w.length + 1) < maxDepth) {p : Nat} (hp : p ≤ w.length) {s : State}
    (hs : s ∈ (workBy c maxDepth next (w.take p)).queue) :
    s.depth < maxDepth := by
  refine Nat.lt_of_le_of_lt ((shallow_of_mem hc builds hp s (Or.inl hs)).trans ?_) hdepth
  cases he : s.entered with
  | none => simp
  | some q =>
    have := ((workBy_spec hc builds (w.take p)).placed.queue s hs).entered_lt q he
    simp only [size_belowBy, List.length_take] at this
    exact Nat.mul_le_mul_left _ (by omega)

/-- While the levels of a text are built, no state calls a rule that is not entered as it would be nested
too deeply. -/
def Uncut (c : Compiled) (maxDepth : Nat) (next : Stack → UInt8 → Work) (w : Bytes) : Prop :=
  ∀ p ≤ w.length, ∀ s ∈ (workBy c maxDepth next (w.take p)).queue,
    (c.table s.rule).callsOf s.state ≠ [] → s.depth < maxDepth

/-- No rule is left out if rules may be nested as deeply as there are rules for each level. -/
theorem uncut_of_deep (hc : c.Regular) (builds : Builds c maxDepth next)
    (hdepth : c.tables.size * (w.length + 1) < maxDepth) : Uncut c maxDepth next w :=
  fun _ hp _ hs _ => depth_lt hc builds hdepth hp hs

private theorem Uncut.lt_of_call (uncut : Uncut c maxDepth next w) {p : Nat} (hp : p ≤ w.length) {s : State}
    (hs : s ∈ (workBy c maxDepth next (w.take p)).queue) {r : RuleId} {t : StateId}
    (call : (r, t) ∈ (c.table s.rule).callsOf s.state) : s.depth < maxDepth :=
  uncut p hp s hs (List.ne_nil_of_mem call)

/-! ## What can be reached is met -/

private theorem mayLeave_of_call {t : Table} {s s' : StateId} {r : RuleId}
    (h : (r, s') ∈ t.callsOf s) : t.mayLeave s = true := by
  have : t.callsOf s ≠ [] := List.ne_nil_of_mem h
  simp [Table.mayLeave, this]

private theorem mayLeave_of_accepts {t : Table} {s : StateId} (h : t.accepts s = true) :
    t.mayLeave s = true := by
  simp [Table.mayLeave, h]

/-- All places that can be reached are met if no rule is left out. -/
theorem mem_seen_of_item (hc : c.Regular) (builds : Builds c maxDepth next)
    (uncut : Uncut c maxDepth next w) {p : Nat} {k : Place} (h : Item c w p k) :
    p ≤ w.length ∧ k ∈ (workBy c maxDepth next (w.take p)).seen := by
  induction h with
  | root => exact ⟨Nat.zero_le _, (workBy_spec hc builds _).seeds (rootState c) rfl⟩
  | @scan p r s s' k b item hb hs ih =>
    obtain ⟨hp, seen⟩ := ih
    have hlt : p < w.length := (List.getElem?_eq_some_iff.1 hb).1
    obtain ⟨x, hx, rfl, rfl, rfl⟩ := (workBy_spec hc builds _).exists_scannable seen
      ((hc.table _ (item.rule_lt hc)).scans _ _ _ hs)
    refine ⟨hlt, ?_⟩
    have seed : SeedsBy c maxDepth next (w.take (p + 1)) { x with state := s' } := by
      rw [List.take_add_one, hb, Option.toList_some, seedsBy_append]
      exact ⟨x, by simpa using hx, s', hs, rfl⟩
    exact (workBy_spec hc builds _).seeds _ seed
  | @call p r r' s s' k item hs ih =>
    obtain ⟨hp, seen⟩ := ih
    obtain ⟨x, hx, rfl, rfl, rfl⟩ :=
      (workBy_spec hc builds _).exists_queued seen (mayLeave_of_call hs)
    have := (((workBy_spec hc builds _).done x hx).called (uncut.lt_of_call hp hx hs) _ _ hs).2
    exact ⟨hp, by simpa [hp] using this⟩
  | @resume p q r r' s s' f k caller hs ended hf ih₁ ih₂ =>
    obtain ⟨hq, seen₁⟩ := ih₁
    obtain ⟨hp, seen₂⟩ := ih₂
    refine ⟨hp, ?_⟩
    obtain ⟨x, hx, rfl, rfl, rfl⟩ :=
      (workBy_spec hc builds _).exists_queued seen₁ (mayLeave_of_call hs)
    obtain ⟨y, hy, rfl, rfl, he⟩ :=
      (workBy_spec hc builds _).exists_queued seen₂ (mayLeave_of_accepts hf)
    have waits := (((workBy_spec hc builds _).done x hx).called (uncut.lt_of_call hq hx hs) _ _ hs).1
    have answered := ((workBy_spec hc builds _).done y hy).ended hf
    rw [he] at answered
    have size : (belowBy c maxDepth next (w.take p)).size = p := by simp [hp]
    rcases Nat.lt_or_eq_of_le ended.sound.1 with hlt | rfl
    · have hlt : q < p := hlt
      refine answered.2 (y.rule, { x with state := s' }) ?_ (by omega) rfl
      rw [waiting, if_neg (by omega), getElem?_belowBy _ (by simp; omega), List.take_take,
        Nat.min_eq_left hlt.le]
      exact waits
    · exact (workBy_spec hc builds _).linked _ waits (answered.1 size.symm)

/-! ## What stacks read -/

/-- The root rule accepts at a position of a text. -/
def RootEnds (c : Compiled) (w : Bytes) (p : Nat) : Prop :=
  ∃ f, (c.table c.root).accepts f = true ∧ Item c w p (c.root, f, none)

/-- A place can be reached at a position of a text from which a byte can be read, or the root rule
accepts there. -/
def ItemAlive (c : Compiled) (w : Bytes) (p : Nat) : Prop :=
  (∃ r s k, Item c w p (r, s, k) ∧ (c.table r).scansAt s = true) ∨ RootEnds c w p

section

variable {p : Nat}

/-- Where the text may end at a level, the root rule accepts. -/
theorem rootEnds_of_ends (hc : c.Regular) (builds : Builds c maxDepth next) (hp : p ≤ w.length)
    (h : (workBy c maxDepth next (w.take p)).ends = true) : RootEnds c w p := by
  have built : Built c maxDepth _ _ (workBy c maxDepth next (w.take p)) := workBy_spec hc builds _
  obtain ⟨-, s, hs, -, he, accepts⟩ := built.founded.ends h
  have item : Item c w p s.key := item_of_mem_seen hc builds hp s.key (built.founded.key_mem hs)
  have root : s.rule = c.root := item.sound.2.1 he
  rw [State.key, he, root] at item
  exact ⟨s.state, root ▸ accepts, item⟩

/-- The text may end at a level where the root rule accepts, if no rule is left out. -/
theorem ends_of_rootEnds (hc : c.Regular) (builds : Builds c maxDepth next)
    (uncut : Uncut c maxDepth next w) (h : RootEnds c w p) :
    (workBy c maxDepth next (w.take p)).ends = true := by
  have built : Built c maxDepth _ _ (workBy c maxDepth next (w.take p)) := workBy_spec hc builds _
  obtain ⟨f, hf, item⟩ := h
  obtain ⟨s, hs, hr, rfl, he⟩ :=
    built.exists_queued (mem_seen_of_item hc builds uncut item).2 (mayLeave_of_accepts hf)
  have := (built.done s hs).ended (hr ▸ hf)
  rwa [he] at this

/-- Where a parse survives, a place can be reached from which it goes on. -/
theorem itemAlive_of_alive (hc : c.Regular) (builds : Builds c maxDepth next) (hp : p ≤ w.length)
    (h : (workBy c maxDepth next (w.take p)).Alive) : ItemAlive c w p := by
  rcases h with scannable | ends
  · obtain ⟨s, hs⟩ := Array.exists_mem_of_ne_empty _ scannable
    obtain ⟨seen, scans⟩ := (workBy_spec hc builds (w.take p)).founded.scans s hs
    exact Or.inl ⟨_, _, _, item_of_mem_seen hc builds hp _ seen, scans⟩
  · exact Or.inr (rootEnds_of_ends hc builds hp ends)

/-- A parse survives where a place can be reached from which it goes on, if no rule is left out. -/
theorem alive_of_itemAlive (hc : c.Regular) (builds : Builds c maxDepth next)
    (uncut : Uncut c maxDepth next w) (h : ItemAlive c w p) :
    (workBy c maxDepth next (w.take p)).Alive := by
  rcases h with ⟨r, s, k, item, scans⟩ | ends
  · obtain ⟨x, hx, -⟩ :=
      (workBy_spec hc builds _).exists_scannable (mem_seen_of_item hc builds uncut item).2 scans
    exact Or.inl (Array.ne_empty_of_mem hx)
  · exact Or.inr (ends_of_rootEnds hc builds uncut ends)

/-- If no rule is left out, the text may end at a level just where the root rule accepts. -/
theorem ends_iff (hc : c.Regular) (builds : Builds c maxDepth next) (uncut : Uncut c maxDepth next w)
    (hp : p ≤ w.length) : (workBy c maxDepth next (w.take p)).ends = true ↔ RootEnds c w p :=
  ⟨rootEnds_of_ends hc builds hp, ends_of_rootEnds hc builds uncut⟩

/-- If no rule is left out, a parse survives just where a place can be reached from which it goes on. -/
theorem alive_iff (hc : c.Regular) (builds : Builds c maxDepth next) (uncut : Uncut c maxDepth next w)
    (hp : p ≤ w.length) : (workBy c maxDepth next (w.take p)).Alive ↔ ItemAlive c w p :=
  ⟨itemAlive_of_alive hc builds hp, alive_of_itemAlive hc builds uncut⟩

/-- The states from which the next byte can be read are the places that can be reached and read something,
if no rule is left out. -/
theorem exists_scannable_iff (hc : c.Regular) (builds : Builds c maxDepth next)
    (uncut : Uncut c maxDepth next w) (hp : p ≤ w.length) {k : Place} :
    (∃ s ∈ (workBy c maxDepth next (w.take p)).scannable, s.key = k) ↔
      Item c w p k ∧ (c.table k.1).scansAt k.2.1 = true := by
  have built : Built c maxDepth _ _ (workBy c maxDepth next (w.take p)) := workBy_spec hc builds _
  constructor
  · rintro ⟨s, hs, rfl⟩
    obtain ⟨seen, scans⟩ := built.founded.scans s hs
    exact ⟨item_of_mem_seen hc builds hp _ seen, scans⟩
  · obtain ⟨r, t, e⟩ := k
    rintro ⟨item, scans⟩
    obtain ⟨s, hs, rfl, rfl, rfl⟩ :=
      built.exists_scannable (mem_seen_of_item hc builds uncut item).2 scans
    exact ⟨s, hs, rfl⟩

end

/-- Up to where the root rule accepts, a place can be reached from which a parse goes on. -/
private theorem itemAlive_of_rootEnds (hc : c.Regular) (h : RootEnds c w w.length) {p : Nat}
    (hp : p ≤ w.length) : ItemAlive c w p := by
  rcases Nat.lt_or_eq_of_le hp with hlt | rfl
  · obtain ⟨f, -, item⟩ := h
    obtain ⟨r, s, k, b, s', item', -, hs⟩ := item.exists_scan p hlt
    exact Or.inl ⟨r, s, k, item', (hc.table _ (item'.rule_lt hc)).scans _ _ _ hs⟩
  · exact Or.inr h

/-- A parse survives each byte of a text, and the text may end, if and only if the root rule describes
the text, if no rule is left out. -/
theorem survivesBy_and_ends_iff (hc : c.Regular) (builds : Builds c maxDepth next)
    (uncut : Uncut c maxDepth next w) :
    SurvivesBy c maxDepth next w ∧ (workBy c maxDepth next w).ends = true ↔
      w ∈ c.network.reading c.root := by
  rw [Item.mem_reading_iff]
  constructor
  · rintro ⟨-, ends⟩
    exact rootEnds_of_ends hc builds le_rfl (by rwa [List.take_length])
  · intro rootEnds
    constructor
    · intro p hp
      exact alive_of_itemAlive hc builds uncut (itemAlive_of_rootEnds hc rootEnds hp)
    · have ends := ends_of_rootEnds hc builds uncut rootEnds
      rwa [List.take_length] at ends

/-! ## Texts that stacks read -/

/-- While the levels of a text are built, a state calls a rule that is not entered, as it would be nested
too deeply. -/
def CutsOff (c : Compiled) (maxDepth : Nat) (w : Bytes) : Prop :=
  ∃ p ≤ w.length, ∃ s ∈ (workOf c maxDepth (w.take p)).queue,
    maxDepth ≤ s.depth ∧ (c.table s.rule).callsOf s.state ≠ []

theorem uncut_of_not_cutsOff (h : ¬ CutsOff c maxDepth w) : Uncut c maxDepth (nextWork c maxDepth) w :=
  fun p hp s hs calls => not_le.1 fun deep => h ⟨p, hp, s, hs, deep, calls⟩

/-- No rule is left out if rules may be nested as deeply as there are rules for each level. -/
theorem not_cutsOff (hc : c.Regular) (hdepth : c.tables.size * (w.length + 1) < maxDepth) :
    ¬ CutsOff c maxDepth w := by
  rintro ⟨p, hp, s, hs, deep, calls⟩
  exact absurd (uncut_of_deep hc (builds_nextWork hc) hdepth p hp s hs calls) (not_lt.2 deep)

/-- A stack reads a text to where it may end if and only if the root rule describes the text, if rules
may be nested as deeply as there are rules for each level. -/
theorem advance_start_iff (hc : c.Regular) (hdepth : c.tables.size * (w.length + 1) < maxDepth) :
    (∃ stack, advance c maxDepth (start c maxDepth) w = (true, stack) ∧ stack.mayEnd = true) ↔
      w ∈ c.network.reading c.root := by
  have uncut := uncut_of_deep hc (builds_nextWork hc) hdepth
  rw [← survivesBy_and_ends_iff hc (builds_nextWork hc) uncut]
  have start : start c maxDepth = levels c maxDepth [] := rfl
  rw [start]
  rcases advance_levels c maxDepth [] w with ⟨survives, h⟩ | ⟨dead, h⟩
  · rw [h]
    constructor
    · rintro ⟨stack, hread, ends⟩
      obtain rfl : levels c maxDepth w = stack := congrArg Prod.snd hread
      exact ⟨survives, by rwa [mayEnd_levels] at ends⟩
    · rintro ⟨-, ends⟩
      exact ⟨_, rfl, by rwa [List.nil_append, mayEnd_levels]⟩
  · rw [h]
    refine iff_of_false ?_ fun alive => dead alive.1
    rintro ⟨stack, hread, -⟩
    cases hread

/-! ## Other ceilings -/

/-- Where rules may be nested less or more deeply, and none is left out, a parse survives every text that
it survived before. -/
theorem survives_of_survives (hc : c.Regular) {maxDepth' : Nat} (uncut : ¬ CutsOff c maxDepth' w)
    (h : Survives c maxDepth [] w) : Survives c maxDepth' [] w := fun p hp =>
  alive_of_itemAlive hc (builds_nextWork hc) (uncut_of_not_cutsOff uncut)
    (itemAlive_of_alive hc (builds_nextWork hc) (Nat.succ_le_of_lt hp) (h p hp))

/-- The same holds for the texts that may end. -/
theorem ends_of_ends (hc : c.Regular) {maxDepth' : Nat} (uncut : ¬ CutsOff c maxDepth' w)
    (h : (levels c maxDepth w).mayEnd = true) : (levels c maxDepth' w).mayEnd = true := by
  rw [mayEnd_levels, ← List.take_length (l := w)] at h ⊢
  exact ends_of_rootEnds hc (builds_nextWork hc) (uncut_of_not_cutsOff uncut)
    (rootEnds_of_ends hc (builds_nextWork hc) le_rfl h)

end ConstrainedDecoding.Stack
