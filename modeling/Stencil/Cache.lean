import Stencil.Extraction

/-!
# Caches

A cache keeps extractions under keys that are digests of the root's canonical
path, its text and the options. An extraction names all files it asked for, with
the digests of what it read. A kept one is served only while each of those files
still gives the same digest, or still gives none, and only for the cache's
lifetime, if it has one.

Everything the cache hands out has a number of its own, so that one can tell the
same extraction served again from an equal one made anew. Time is given with each
operation, in whatever unit the lifetime has.
-/

namespace Stencil

/-- An extraction that was handed out, with its number. -/
structure Kept where
  serial : Nat
  extraction : Extraction
  deriving Inhabited

structure Cache.Entry where
  kept : Kept
  inserted : Nat
  deriving Inhabited

structure Cache where
  entries : List (String × Cache.Entry)
  /-- The number of the next extraction that is handed out. -/
  next : Nat
  /-- How long an entry is served; none for as long as its files stay the same. -/
  lifetime : Option Nat
  deriving Inhabited

namespace Cache

def empty (lifetime : Option Nat) : Cache := ⟨[], 0, lifetime⟩

/-- The bytes whose digest is the key. -/
def keyBytes (root : Path) (text : String) (options : Options) : List UInt8 :=
  Digest.utf8 root.text ++ 0 :: Digest.utf8 text ++ 0 :: Digest.utf8 options.fingerprint

/-- The key of an extraction from a root with the given canonical path and text. -/
def key (root : Path) (text : String) (options : Options) : String :=
  Digest.sha256Hex (keyBytes root text options)

/-- Whether a dependency is now as it was. -/
def isCurrent (loader : Loader) (d : Dependency) : Bool :=
  (loader.read d.path).toOption.map Digest.ofText == d.digest

/-- Whether an entry is older than the lifetime. -/
def isExpired (c : Cache) (now : Nat) (e : Entry) : Bool :=
  match c.lifetime with
  | none => false
  | some lifetime => lifetime < now - e.inserted

/-- Whether an entry may be served. -/
def isFresh (c : Cache) (loader : Loader) (now : Nat) (e : Entry) : Bool :=
  !c.isExpired now e && e.kept.extraction.ledger.dependencies.all (isCurrent loader)

/-- The extraction kept under a key, if it is fresh. -/
def get? (c : Cache) (loader : Loader) (now : Nat) (key : String) : Option Kept := do
  let entry ← Assoc.find? key c.entries
  if c.isFresh loader now entry then some entry.kept else none

/-- Numbers an extraction without keeping it. -/
def handOut (c : Cache) (e : Extraction) : Kept × Cache :=
  (⟨c.next, e⟩, { c with next := c.next + 1 })

/-- Keeps an extraction, unless there is a fresh one under the key or one that is no older than
this operation; gives the one that is kept. -/
def insert (c : Cache) (loader : Loader) (now : Nat) (key : String) (e : Extraction) :
    Kept × Cache :=
  let store :=
    let (kept, c) := c.handOut e
    (kept, { c with entries := Assoc.insert key ⟨kept, now⟩ c.entries })
  match Assoc.find? key c.entries with
  | none => store
  | some entry =>
      if c.isFresh loader now entry ∨ now ≤ entry.inserted then (entry.kept, c) else store

/-- The extraction from a root, kept or made anew. A root that cannot be read and a run that was
called off leave the cache alone. -/
def extract (c : Cache) (s : Setting) (now : Nat) (root : Path) : Kept × Cache :=
  let place := (s.options.basePath.join root).normalize
  let loaded : Except LoadError (Path × String) := do
    let path ← s.loader.canonicalize place
    return (path, ← s.loader.read path)
  match loaded with
  | .error _ => c.handOut (.run s root none)
  | .ok (path, text) =>
      let key := key path text s.options
      match c.get? s.loader now key with
      | some kept => (kept, c)
      | none =>
          let e := Extraction.run s root none
          if e.problems.any fun p => p.kind == .cancelled then c.handOut e
          else c.insert s.loader now key e

/-- Drops what is older than the lifetime, and says how many entries that were. -/
def evict (c : Cache) (now : Nat) : Nat × Cache :=
  let kept := c.entries.filter fun entry => !c.isExpired now entry.2
  (c.entries.length - kept.length, { c with entries := kept })

def clear (c : Cache) : Cache := { c with entries := [] }

def size (c : Cache) : Nat := c.entries.length

def isEmpty (c : Cache) : Bool := c.entries.isEmpty

end Cache

end Stencil
