import ConstrainedDecoding.Compiled.Basic
import ConstrainedDecoding.Grammar.FrontEnds
import ConstrainedDecoding.Grammar.Printer
import ConstrainedDecoding.Tag.Grammar

/-!
# Compilers

A compiler compiles against one vocabulary and keeps what it has compiled, each under the kind and
the text of its source. The entry that was not used for the longest time goes first when a new entry
does not fit into the given number of bytes; a single entry larger than that is kept all the same.

The entries are held in a cache of the library `lru`, which is not part of this one. `touch`, `evict` and
`insert` rely on this behaviour of it: a key has at most one entry; what a lookup finds becomes the entry
that was used last, and so does what is put in; and what is taken out as least recent is the entry whose
last lookup or entering lies furthest back. The list `Compiler.entries` is that order, the last use first.
-/
namespace ConstrainedDecoding

namespace Compiler

/-- What is to be compiled. -/
inductive Source
  | grammar (g : Grammar)
  | schema (options : Schema.Options) (text : String)
  /-- The grammar of JSON values. -/
  | json
  | pattern (text : String)
  | tags (text : String)

/-- The kinds of sources. -/
inductive SourceKind
  | grammar
  | schema
  | json
  | pattern
  | tags
  deriving DecidableEq

/-- What a product is kept under: the kind of its source, and a text. -/
structure Key where
  kind : SourceKind
  text : String
  deriving DecidableEq

/-- The key of a source. A grammar's is its printed text, and a schema's is a line that shows the options,
followed by the schema. -/
def Source.key : Source → Key
  | grammar g => ⟨.grammar, g.text⟩
  | schema options text => ⟨.schema, options.shown ++ "\n" ++ text⟩
  | json => ⟨.json, ""⟩
  | pattern text => ⟨.pattern, text⟩
  | tags text => ⟨.tags, text⟩

/-- The grammar of a source. -/
def Source.toGrammar : Source → Except Error Grammar
  | grammar g => .ok g
  | schema options text => Grammar.ofSchemaText text options
  | json => .ok Grammar.json
  | pattern text => Grammar.ofPattern text
  | tags text => Grammar.ofTags text

/-- Compiles a source against a vocabulary. -/
def Source.compile (s : Source) (v : Vocabulary) : Except Error Compiled := do
  (Compiled.compile (← s.toGrammar) v).mapError .grammar

/-- A compiled grammar with the number of the call that made it. -/
structure Product where
  serial : Nat
  compiled : Compiled

/-- A kept product. -/
structure Entry where
  key : Key
  product : Product
  /-- The number of bytes that the product is reckoned to take. -/
  bytes : Nat

end Compiler

open Compiler

/-- A compiler. -/
structure Compiler where
  vocabulary : Vocabulary
  /-- Whether products are kept. -/
  keeps : Bool
  /-- How many bytes the kept products may take. -/
  limit : Option Nat
  /-- The kept products; the one that was used last comes first. -/
  entries : List Entry
  /-- The number of bytes that the kept products take. -/
  used : Nat
  /-- The number of products so far. -/
  made : Nat

namespace Compiler

/-- A compiler that has compiled nothing. -/
def new (v : Vocabulary) (keeps : Bool) (limit : Option Nat) : Compiler :=
  ⟨v, keeps, limit, [], 0, 0⟩

/-- Forgets all products. -/
def clear (c : Compiler) : Compiler := { c with entries := [], used := 0 }

/-- Whether `bytes` more fit. -/
def fits (limit : Option Nat) (used bytes : Nat) : Bool :=
  match limit with
  | none => true
  | some n => used + bytes ≤ n

/-- Takes out the least recent entry, which is at the front, until `bytes` more fit or none is left.
Answers what stays and how many bytes it takes. -/
def evict (limit : Option Nat) (bytes : Nat) : (oldestFirst : List Entry) → (used : Nat) →
    List Entry × Nat
  | [], used => ([], used)
  | e :: rest, used =>
    if fits limit used bytes then (e :: rest, used) else evict limit bytes rest (used - e.bytes)

/-- Keeps a product under a key that has none, as the entry that was used last. -/
def insert (c : Compiler) (key : Key) (p : Product) : Compiler :=
  let bytes := p.compiled.memory
  let (kept, used) := evict c.limit bytes c.entries.reverse c.used
  { c with entries := ⟨key, p, bytes⟩ :: kept.reverse, used := used + bytes }

/-- What a lookup does with the entry that it finds: it is the one that was used last. -/
def touch (c : Compiler) (e : Entry) : Compiler :=
  { c with entries := e :: c.entries.filter (·.key ≠ e.key) }

/-- Compiles a source, or answers the product that is kept for it. -/
def compile (c : Compiler) (s : Source) : Except Error Product × Compiler :=
  let key := s.key
  match c.entries.find? (·.key = key) with
  | some e => (.ok e.product, c.touch e)
  | none =>
    match s.compile c.vocabulary with
    | .error e => (.error e, c)
    | .ok compiled =>
      let p : Product := ⟨c.made, compiled⟩
      let c := { c with made := c.made + 1 }
      (.ok p, if c.keeps then c.insert key p else c)

end Compiler

end ConstrainedDecoding
