import ConstrainedDecoding.Compiler.Basic

/-!
# Shared compilers

A caller that finds no product for a source marks the key while it compiles the source, and others
that ask for the same key wait. The mark is taken back whatever comes of it. A product is not kept if
the products were forgotten while it was compiled.
-/
namespace ConstrainedDecoding.Compiler

/-- A compiler that callers share. -/
structure Shared where
  compiler : Compiler
  /-- The keys whose sources are being compiled. -/
  marked : List Key
  /-- How many times the products were forgotten. -/
  clears : Nat

/-- What a caller finds under a key. -/
inductive Found
  | product (p : Product)
  /-- Another caller compiles the source. -/
  | mark
  /-- The caller has to compile the source; the products were forgotten so many times by now. -/
  | nothing (clears : Nat)

namespace Shared

/-- A shared compiler that has compiled nothing. -/
def new (v : Vocabulary) (keeps : Bool) (limit : Option Nat) : Shared :=
  ⟨Compiler.new v keeps limit, [], 0⟩

/-- Forgets all products. -/
def clear (d : Shared) : Shared := { d with compiler := d.compiler.clear, clears := d.clears + 1 }

/-- Looks for a key, and marks it if nothing is found. -/
def enter (d : Shared) (key : Key) : Found × Shared :=
  match d.compiler.entries.find? (·.key = key) with
  | some e => (.product e.product, { d with compiler := d.compiler.touch e })
  | none =>
    if key ∈ d.marked then (.mark, d)
    else (.nothing d.clears, { d with marked := key :: d.marked })

/-- Takes back the mark of a key, and keeps what the source was compiled to. -/
def leave (d : Shared) (key : Key) (clears : Nat) (result : Except Error Compiled) :
    Except Error Product × Shared :=
  let marked := d.marked.erase key
  match result with
  | .error e => (.error e, { d with marked })
  | .ok compiled =>
    let p : Product := ⟨d.compiler.made, compiled⟩
    let c := { d.compiler with made := d.compiler.made + 1 }
    (.ok p, { d with compiler := if clears = d.clears then c.insert key p else c, marked })

/-- Compiles a source while no other caller does anything. There is no answer if the caller has to
wait. -/
def compile (d : Shared) (s : Source) : Option (Except Error Product) × Shared :=
  if d.compiler.keeps then
    match d.enter s.key with
    | (.product p, d) => (some (.ok p), d)
    | (.mark, d) => (none, d)
    | (.nothing clears, d) =>
      let (answer, d) := d.leave s.key clears (s.compile d.compiler.vocabulary)
      (some answer, d)
  else
    let (answer, c) := d.compiler.compile s
    (some answer, { d with compiler := c })

end Shared

end ConstrainedDecoding.Compiler
