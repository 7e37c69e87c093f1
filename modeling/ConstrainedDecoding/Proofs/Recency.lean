import ConstrainedDecoding.Compiler.Shared
import ConstrainedDecoding.Proofs.Caching

/-!
# What a compiler keeps

The kept products stand in the order of their last use and take the bytes that the compiler counts.
To keep a new one, a compiler drops those that were not used for the longest time, and no more of them
than it has to.
-/
namespace ConstrainedDecoding.Compiler

/-- The number of bytes that the products of entries take. -/
def weight (entries : List Entry) : Nat := (entries.map (·.product.compiled.memory)).sum

@[simp] theorem weight_nil : weight [] = 0 := rfl

@[simp] theorem weight_cons (e : Entry) (entries : List Entry) :
    weight (e :: entries) = e.product.compiled.memory + weight entries := by
  simp [weight]

@[simp] theorem weight_reverse (entries : List Entry) : weight entries.reverse = weight entries := by
  simp [weight]

theorem weight_perm {entries entries' : List Entry} (h : entries.Perm entries') :
    weight entries = weight entries' :=
  (h.map _).sum_eq

/-! ## Shared compilers whose callers take turns -/

namespace Shared

/-- Does what is asked. -/
def call (d : Shared) : Call → Shared
  | .compile s => (d.compile s).2
  | .clear => d.clear

/-- A shared compiler after calls. -/
def run (d : Shared) (calls : List Call) : Shared := calls.foldl call d

/-- A caller that nobody is in the way of does what a compiler does for it alone. -/
theorem compile_eq {d : Shared} (h : d.marked = []) (s : Source) :
    d.compile s = (some (d.compiler.compile s).1, { d with compiler := (d.compiler.compile s).2 }) := by
  obtain ⟨c, marked, clears⟩ := d
  obtain rfl : marked = [] := h
  cases hkeeps : c.keeps with
  | false => simp [Shared.compile, hkeeps]
  | true =>
    cases hfind : c.entries.find? (·.key = s.key) with
    | some e => simp [Shared.compile, Compiler.compile, enter, hkeeps, hfind]
    | none =>
      cases hcompile : s.compile c.vocabulary with
      | error e => simp [Shared.compile, Compiler.compile, enter, leave, hkeeps, hfind, hcompile]
      | ok compiled => simp [Shared.compile, Compiler.compile, enter, leave, hkeeps, hfind, hcompile]

/-- No mark is left between calls. -/
theorem marked_run (v : Vocabulary) (keeps : Bool) (limit : Option Nat) (calls : List Call) :
    ((new v keeps limit).run calls).marked = [] ∧
      ((new v keeps limit).run calls).compiler = (Compiler.new v keeps limit).run calls := by
  induction calls using List.reverseRecOn with
  | nil => exact ⟨rfl, rfl⟩
  | append_singleton calls x ih =>
    simp only [Shared.run, Compiler.run, List.foldl_append, List.foldl_cons, List.foldl_nil] at ih ⊢
    cases x with
    | compile s => simp [call, Compiler.call, compile_eq ih.1, ih]
    | clear => simp [call, Compiler.call, clear, ih]

end Shared

/-! ## The order of last use -/

/-- Whether a call compiles a source with a key. -/
def Call.uses (key : Key) : Call → Bool
  | .compile s => s.key = key
  | .clear => false

/-- The number of calls up to the last one that compiles a source with a key. -/
def lastUse (calls : List Call) (key : Key) : Nat :=
  calls.length - calls.reverse.findIdx (·.uses key)

theorem lastUse_le (calls : List Call) (key : Key) : lastUse calls key ≤ calls.length :=
  Nat.sub_le ..

@[simp] theorem lastUse_compile (calls : List Call) (s : Source) :
    lastUse (calls ++ [.compile s]) s.key = calls.length + 1 := by
  simp [lastUse, Call.uses, List.findIdx_cons]

theorem lastUse_compile_of_ne (calls : List Call) {s : Source} {key : Key} (h : key ≠ s.key) :
    lastUse (calls ++ [.compile s]) key = lastUse calls key := by
  simp [lastUse, Call.uses, List.findIdx_cons, h.symm]

/-- The entries of a compiler after some calls: each with the bytes of its product, the one that was
used last in front, and the bytes counted. -/
structure Ordered (calls : List Call) (c : Compiler) : Prop where
  bytes : ∀ e ∈ c.entries, e.bytes = e.product.compiled.memory
  order : c.entries.Pairwise fun e e' => lastUse calls e'.key < lastUse calls e.key
  used : c.used = weight c.entries

theorem Ordered.clear (calls : List Call) (c : Compiler) : Ordered (calls ++ [.clear]) c.clear :=
  ⟨by simp [Compiler.clear], by simp [Compiler.clear], rfl⟩

variable {calls : List Call} {c : Compiler}

/-- Different entries have different keys. -/
theorem Ordered.nodup (h : Ordered calls c) : (c.entries.map (·.key)).Nodup := by
  refine List.pairwise_map.2 (h.order.imp fun {e e'} hlt heq => ?_)
  rw [heq] at hlt
  exact hlt.false

/-- Eviction drops the first entries, and none if the others with the last of them fit. -/
theorem evict_spec (limit : Option Nat) (bytes : Nat) (entries : List Entry)
    (h : ∀ e ∈ entries, e.bytes = e.product.compiled.memory) :
    ∃ gone stay, entries = gone ++ stay ∧
      evict limit bytes entries (weight entries) = (stay, weight stay) ∧
      (stay = [] ∨ fits limit (weight stay) bytes = true) ∧
      ∀ e ∈ gone.getLast?, fits limit (weight (e :: stay)) bytes = false := by
  induction entries with
  | nil => exact ⟨[], [], rfl, rfl, Or.inl rfl, by simp⟩
  | cons e rest ih =>
    rw [evict]
    split
    · rename_i hfits
      exact ⟨[], e :: rest, rfl, rfl, Or.inr hfits, by simp⟩
    · rename_i hfull
      obtain ⟨gone, stay, rfl, hevict, hstay, hlast⟩ := ih fun e he => h e (List.mem_cons_of_mem _ he)
      have hrest : weight (e :: (gone ++ stay)) - e.bytes = weight (gone ++ stay) := by
        rw [h e List.mem_cons_self, weight_cons, Nat.add_sub_cancel_left]
      refine ⟨e :: gone, stay, rfl, by rw [hrest, hevict], hstay, ?_⟩
      cases gone using List.reverseRecOn with
      | nil => simpa using hfull
      | append_singleton gone last =>
        rw [← List.cons_append, List.getLast?_concat]
        rwa [List.getLast?_concat] at hlast

/-- To keep a product, a compiler drops the entries at the end of its list, no more than it has to. -/
theorem Ordered.insert (h : Ordered calls c) (key : Key) (p : Product) :
    ∃ stay gone, c.entries = stay ++ gone ∧
      c.insert key p =
        { c with entries := ⟨key, p, p.compiled.memory⟩ :: stay
                 used := weight stay + p.compiled.memory } ∧
      (stay = [] ∨ fits c.limit (weight stay) p.compiled.memory = true) ∧
      ∀ e ∈ gone.head?, fits c.limit (weight (e :: stay)) p.compiled.memory = false := by
  obtain ⟨gone, stay, hsplit, hevict, hstay, hlast⟩ :=
    evict_spec c.limit p.compiled.memory c.entries.reverse fun e he => h.bytes e (List.mem_reverse.1 he)
  rw [weight_reverse, ← h.used] at hevict
  refine ⟨stay.reverse, gone.reverse, ?_, ?_, ?_, ?_⟩
  · rw [← List.reverse_append, ← hsplit, List.reverse_reverse]
  · simp [Compiler.insert, hevict]
  · simpa using hstay
  · simpa using hlast

/-- What was used last comes to the front. -/
theorem Ordered.front (h : Ordered calls c) {s : Source} {entries : List Entry}
    (hsub : entries.Sublist c.entries) (hother : ∀ e ∈ entries, e.key ≠ s.key) {e : Entry}
    (he : e.key = s.key) :
    (e :: entries).Pairwise fun e e' =>
      lastUse (calls ++ [.compile s]) e'.key < lastUse (calls ++ [.compile s]) e.key := by
  refine List.pairwise_cons.2 ⟨fun e' he' => ?_, ?_⟩
  · rw [he, lastUse_compile, lastUse_compile_of_ne _ (hother e' he')]
    exact Nat.lt_succ_of_le (lastUse_le ..)
  · refine (h.order.sublist hsub).imp_of_mem fun {e e'} he he' hlt => ?_
    rwa [lastUse_compile_of_ne _ (hother e he), lastUse_compile_of_ne _ (hother e' he')]

/-- Moving an entry to the front, where all have different keys. -/
theorem perm_front {e : Entry} {entries : List Entry} (nodup : (entries.map (·.key)).Nodup)
    (he : e ∈ entries) : (e :: entries.filter (·.key ≠ e.key)).Perm entries := by
  induction entries with
  | nil => cases he
  | cons first rest ih =>
    obtain ⟨hfirst, nodup⟩ := List.nodup_cons.1 nodup
    have differs {e' : Entry} (h : e' ∈ rest) : e'.key ≠ first.key := fun heq =>
      hfirst (List.mem_map.2 ⟨e', h, heq⟩)
    rcases List.mem_cons.1 he with rfl | he
    · have stays : rest.filter (·.key ≠ e.key) = rest :=
        List.filter_eq_self.2 fun e' h => decide_eq_true (differs h)
      rw [List.filter_cons_of_neg (by simp), stays]
    · rw [List.filter_cons_of_pos (by simpa using (differs he).symm)]
      exact (List.Perm.swap ..).trans ((ih nodup he).cons first)

/-- An entry that is used moves to the front. -/
theorem Ordered.touch (h : Ordered calls c) {s : Source} {e : Entry} (he : e ∈ c.entries)
    (hkey : e.key = s.key) : Ordered (calls ++ [.compile s]) (c.touch e) where
  bytes e' he' := h.bytes e' ((perm_front h.nodup he).mem_iff.1 he')
  order := h.front List.filter_sublist (fun e' he' => by simpa [hkey] using (List.mem_filter.1 he').2) hkey
  used := h.used.trans (weight_perm (perm_front h.nodup he)).symm

/-- A new entry is in front of those that stay. -/
theorem Ordered.cons (h : Ordered calls c) {s : Source} {stay : List Entry}
    (hsub : stay.Sublist c.entries) (hother : ∀ e ∈ c.entries, e.key ≠ s.key) (p : Product)
    (made : Nat) :
    Ordered (calls ++ [.compile s])
      { c with entries := ⟨s.key, p, p.compiled.memory⟩ :: stay
               used := weight stay + p.compiled.memory
               made } where
  bytes := List.forall_mem_cons.2 ⟨rfl, fun e he => h.bytes e (hsub.mem he)⟩
  order := h.front hsub (fun e he => hother e (hsub.mem he)) rfl
  used := by rw [weight_cons, Nat.add_comm]

/-- A source that is not compiled changes nothing. -/
theorem Ordered.of_other (h : Ordered calls c) {s : Source} (hother : ∀ e ∈ c.entries, e.key ≠ s.key) :
    Ordered (calls ++ [.compile s]) c where
  bytes := h.bytes
  order := h.order.imp_of_mem fun {e e'} he he' hlt => by
    rwa [lastUse_compile_of_ne _ (hother e he), lastUse_compile_of_ne _ (hother e' he')]
  used := h.used

/-! ## Calls -/

/-- A kept product is found under its key. -/
theorem Ordered.compile_kept (h : Ordered calls c) {s : Source} {e : Entry} (he : e ∈ c.entries)
    (hkey : e.key = s.key) : c.compile s = (.ok e.product, c.touch e) := by
  rw [Compiler.compile, ← hkey]
  cases hfind : c.entries.find? (·.key = e.key) with
  | none => simpa using List.find?_eq_none.1 hfind e he
  | some e' =>
    have heq : e'.key = e.key := by simpa using List.find?_some hfind
    obtain rfl := List.inj_on_of_nodup_map h.nodup (List.mem_of_find?_eq_some hfind) he heq
    rfl

/-- A source whose product is not kept is compiled. -/
theorem compile_other (c : Compiler) {s : Source} (h : ∀ e ∈ c.entries, e.key ≠ s.key) :
    c.compile s = match s.compile c.vocabulary with
      | .error err => (.error err, c)
      | .ok compiled =>
        (.ok ⟨c.made, compiled⟩, if c.keeps then
          { c with made := c.made + 1 }.insert s.key ⟨c.made, compiled⟩
        else { c with made := c.made + 1 }) := by
  have hfind : c.entries.find? (·.key = s.key) = none := by simpa using h
  cases hcompile : s.compile c.vocabulary <;> simp [Compiler.compile, hfind, hcompile]

/-- A compiler that keeps its products. -/
structure Keeping (v : Vocabulary) (limit : Option Nat) (calls : List Call) (c : Compiler) : Prop extends
    Ordered calls c where
  vocabulary : c.vocabulary = v
  keeps : c.keeps = true
  limit : c.limit = limit

variable {v : Vocabulary} {limit : Option Nat}

/-- What compiling a source whose product is not kept does to a compiler that keeps its products. -/
theorem Keeping.compile_other (h : Keeping v limit calls c) {s : Source}
    (hother : ∀ e ∈ c.entries, e.key ≠ s.key) {compiled : Compiled} (hcompile : s.compile v = .ok compiled) :
    ∃ stay gone, c.entries = stay ++ gone ∧
      c.compile s = (.ok ⟨c.made, compiled⟩,
        { c with entries := ⟨s.key, ⟨c.made, compiled⟩, compiled.memory⟩ :: stay
                 used := weight stay + compiled.memory
                 made := c.made + 1 }) ∧
      (stay = [] ∨ fits limit (weight stay) compiled.memory = true) ∧
      ∀ e ∈ gone.head?, fits limit (weight (e :: stay)) compiled.memory = false := by
  have counted : Ordered calls { c with made := c.made + 1 } := ⟨h.bytes, h.order, h.used⟩
  obtain ⟨stay, gone, hsplit, hinsert, hstay, hlast⟩ := counted.insert s.key ⟨c.made, compiled⟩
  refine ⟨stay, gone, hsplit, ?_, h.limit ▸ hstay, h.limit ▸ hlast⟩
  rw [← h.vocabulary] at hcompile
  rw [Compiler.compile_other c hother, hcompile]
  simp only [if_pos h.keeps, hinsert]

/-- A call keeps the entries in order. -/
theorem Keeping.call (h : Keeping v limit calls c) (x : Call) :
    Keeping v limit (calls ++ [x]) (c.call x) := by
  cases x with
  | clear => exact ⟨Ordered.clear calls c, h.vocabulary, h.keeps, h.limit⟩
  | compile s =>
    change Keeping v limit _ (c.compile s).2
    by_cases hkept : ∃ e ∈ c.entries, e.key = s.key
    · obtain ⟨e, he, hkey⟩ := hkept
      rw [h.compile_kept he hkey]
      exact ⟨h.touch he hkey, h.vocabulary, h.keeps, h.limit⟩
    · have hother : ∀ e ∈ c.entries, e.key ≠ s.key := by simpa using hkept
      cases hcompile : s.compile v with
      | error err =>
        rw [Compiler.compile_other c hother, h.vocabulary, hcompile]
        exact ⟨h.of_other hother, h.vocabulary, h.keeps, h.limit⟩
      | ok compiled =>
        obtain ⟨stay, gone, hsplit, heq, -⟩ := h.compile_other hother hcompile
        have hsub : stay.Sublist c.entries := hsplit ▸ List.sublist_append_left stay gone
        rw [heq]
        exact ⟨h.cons hsub hother ⟨c.made, compiled⟩ (c.made + 1), h.vocabulary, h.keeps, h.limit⟩

theorem keeping_run (v : Vocabulary) (limit : Option Nat) (calls : List Call) :
    Keeping v limit calls ((new v true limit).run calls) := by
  induction calls using List.reverseRecOn with
  | nil => exact ⟨⟨by simp [run, new], by simp [run, new], rfl⟩, rfl, rfl, rfl⟩
  | append_singleton calls x ih => simpa [run] using ih.call x

/-- What is so after any calls to a compiler that keeps its products, and what the next call does. The
bytes counted are those of the kept products, whose keys differ. A source with a kept product is
answered with it, and only the order of the entries changes. A source that does not compile changes
nothing. A source that compiles has its product put in front of the entries that stay, which it fits
beside if there are any. The others were not used since the last use of any that stays, and it does
not fit beside the last one of them. -/
theorem keeps_recent (v : Vocabulary) (limit : Option Nat) (calls : List Call) (s : Source) :
    let d := (Shared.new v true limit).run calls
    let c := d.compiler
    c.used = weight c.entries ∧ (c.entries.map (·.key)).Nodup ∧
    (∀ e ∈ c.entries, e.key = s.key → ∃ entries, entries.Perm c.entries ∧
      d.compile s = (some (.ok e.product), { d with compiler := { c with entries } })) ∧
    ((∀ e ∈ c.entries, e.key ≠ s.key) → ∀ err, s.compile v = .error err →
      d.compile s = (some (.error err), d)) ∧
    ((∀ e ∈ c.entries, e.key ≠ s.key) → ∀ compiled, s.compile v = .ok compiled →
      let p : Product := ⟨c.made, compiled⟩
      ∃ stay gone, c.entries = stay ++ gone ∧
        d.compile s = (some (.ok p), { d with compiler :=
          { c with entries := ⟨s.key, p, compiled.memory⟩ :: stay
                   used := weight stay + compiled.memory
                   made := c.made + 1 } }) ∧
        (∀ n ∈ limit, stay = [] ∨ weight stay + compiled.memory ≤ n) ∧
        (∀ e ∈ gone.head?, ∃ n ∈ limit, n < weight (e :: stay) + compiled.memory) ∧
        ∀ e ∈ gone, ∀ e' ∈ stay, lastUse calls e.key < lastUse calls e'.key) ∧
    (d.call .clear).compiler = { c with entries := [], used := 0 } := by
  intro d c
  obtain ⟨hmarked, hcompiler⟩ := Shared.marked_run v true limit calls
  have h : Keeping v limit calls c := by
    rw [show c = _ from hcompiler]
    exact keeping_run v limit calls
  refine ⟨h.used, h.nodup, fun e he hkey => ?_, fun hother err herr => ?_,
    fun hother compiled hcompile => ?_, rfl⟩
  · refine ⟨_, perm_front h.nodup he, ?_⟩
    rw [Shared.compile_eq hmarked, h.compile_kept he hkey]
    rfl
  · rw [Shared.compile_eq hmarked, Compiler.compile_other c hother, h.vocabulary, herr]
  · obtain ⟨stay, gone, hsplit, heq, hstay, hlast⟩ := h.compile_other hother hcompile
    refine ⟨stay, gone, hsplit, by rw [Shared.compile_eq hmarked, heq], ?_, ?_, ?_⟩
    · rintro n rfl
      simpa [fits] using hstay
    · intro e he
      cases limit with
      | none => simpa [fits] using hlast e he
      | some n => exact ⟨n, rfl, by simpa [fits] using hlast e he⟩
    · have order := h.order
      rw [hsplit, List.pairwise_append] at order
      exact fun e he e' he' => order.2.2 e' he' e he

/-- The first product of a compiler is kept, whatever the limit. -/
theorem compiler_run_compile (v : Vocabulary) (limit : Option Nat) {s : Source} {compiled : Compiled}
    (h : s.compile v = .ok compiled) : ((Shared.new v true limit).run [.compile s]).compiler =
      ⟨v, true, limit, [⟨s.key, ⟨0, compiled⟩, compiled.memory⟩], compiled.memory, 1⟩ := by
  rw [(Shared.marked_run v true limit [.compile s]).2]
  simp [Compiler.run, Compiler.call, Compiler.compile, new, h, insert, evict]

/-- The grammar of the empty text. -/
def onlyEmpty : Grammar := ⟨#[⟨"root", 0, none⟩], #[.leaf .empty], 0⟩

/-- Where no byte is allowed, the product made last is kept all the same, and alone: a grammar with the same
text is answered with it, a text that describes no tags changes nothing, and another grammar takes its place. -/
theorem keeps_last_alone : ∃ (kept fresh : Compiled) (err : Error),
    let d := (Shared.new Matcher.onlyX true (some 0)).run [.compile (.grammar (eitherRule 0))]
    d.compiler.entries.map (·.product) = [⟨0, kept⟩] ∧
    (d.compile (.grammar (eitherRule 1))).1 = some (.ok ⟨0, kept⟩) ∧
    d.compile (.tags "") = (some (.error err), d) ∧
    (d.compile (.grammar onlyEmpty)).1 = some (.ok ⟨1, fresh⟩) ∧
    (d.compile (.grammar onlyEmpty)).2.compiler.entries.map (·.product) = [⟨1, fresh⟩] := by
  have compiles : (Source.compile (.grammar (eitherRule 0)) Matcher.onlyX).toOption.isSome = true := by
    decide +kernel
  have large : (Source.compile (.grammar onlyEmpty) Matcher.onlyX).toOption.map
      (fun c => decide (0 < c.memory)) = some true := by
    decide +kernel
  have fails : (Source.compile (.tags "") Matcher.onlyX).toOption = none :=
    Option.isNone_iff_eq_none.1 (by decide +kernel)
  obtain ⟨kept, hkept⟩ := Option.isSome_iff_exists.1 compiles
  obtain ⟨fresh, hfresh, large⟩ := Option.map_eq_some_iff.1 large
  obtain ⟨err, herr⟩ : ∃ err, Source.compile (.tags "") Matcher.onlyX = .error err := by
    cases h : Source.compile (.tags "") Matcher.onlyX with
    | error err => exact ⟨err, rfl⟩
    | ok c => simp [h, Except.toOption] at fails
  have compiler := compiler_run_compile Matcher.onlyX (some 0) (Except.toOption_eq_some.1 hkept)
  have recent := keeps_recent Matcher.onlyX (some 0) [.compile (.grammar (eitherRule 0))]
  refine ⟨kept, fresh, err, by simp [compiler], ?_, ?_, ?_⟩
  · -- the two grammars differ in their roots, which are not written
    have text : (eitherRule 0).text = (eitherRule 1).text := rfl
    obtain ⟨-, -, hit, -⟩ := recent (.grammar (eitherRule 1))
    obtain ⟨_, -, answered⟩ := hit ⟨Source.key (.grammar (eitherRule 0)), ⟨0, kept⟩, kept.memory⟩
      (by simp [compiler]) (congrArg (Key.mk .grammar) text)
    exact congrArg Prod.fst answered
  · obtain ⟨-, -, -, failing, -⟩ := recent (.tags "")
    exact failing (by simp [compiler, Source.key]) err herr
  · obtain ⟨-, -, -, -, other, -⟩ := recent (.grammar onlyEmpty)
    have text : (eitherRule 0).text ≠ onlyEmpty.text := by decide +kernel
    obtain ⟨stay, gone, hsplit, hcall, room, -⟩ :=
      other (by simp [compiler, Source.key, text]) fresh (Except.toOption_eq_some.1 hfresh)
    have alone : stay = [] := (room 0 rfl).resolve_right fun h => by
      have : 0 < fresh.memory := of_decide_eq_true large
      omega
    rw [hcall, alone, compiler]
    exact ⟨rfl, rfl⟩

end ConstrainedDecoding.Compiler
