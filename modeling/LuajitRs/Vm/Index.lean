import LuajitRs.Jit.Exec

/-! Indexing in the interpreter: the raw access, and the chains of `__index` and `__newindex` behind it. A result
is what the instruction does to its operands; the call of a metamethod is left to the caller. -/
namespace LuajitRs.Vm
open Ir

/-- The metamethods of indexing, by their bits in the negative cache. -/
inductive MM
  | index | newindex
  deriving DecidableEq

def MM.bit : MM → ℕ
  | index => 0
  | newindex => 1

/-- What an indexing instruction needs of the global state. -/
structure Globals where
  hash : LuaValue → UInt32
  /-- The interned names of the metamethods. -/
  mmname : MM → LuaValue
  /-- The metatable of a value that is not a table. -/
  basemt : LuaValue → Option ℕ

/-- What an access does: it loads a value, stores, calls a metamethod, or raises an error. -/
inductive Access
  | value (v : LuaValue)
  | stored
  | call (mm : LuaValue) (args : List LuaValue)
  | error
  deriving DecidableEq

abbrev LJ_MAX_IDXCHAIN : ℕ := 100

section
variable {H : Type} (g : Globals) (w : World H)

/-- `meta_fast`: a lookup that remembers in the metatable that it found nothing. -/
def metaFast (mt : Option ℕ) (mm : MM) : Option (World H × Option LuaValue) :=
  match mt with
  | none => some (w, none)
  | some a => do
    let m ← w.tables a
    if m.nomm.testBit mm.bit then some (w, none)
    else do
      let mo ← (m.getStr g.hash (g.mmname mm)).toOption
      if mo.isNil then some (w.setTable a { m with nomm := m.nomm ||| 1 <<< mm.bit }, none)
      else some (w, some mo)

/-- `meta_lookup` on a value that is not a table. -/
def metaLookup (o : LuaValue) (mm : MM) : Option LuaValue :=
  match g.basemt o with
  | none => some .nil
  | some a => do
    let m ← w.tables a
    (m.getStr g.hash (g.mmname mm)).toOption

/-- The loop of `meta_tget`. -/
def metaTget (k : LuaValue) : ℕ → World H → LuaValue → Option (Access × World H)
  | 0, w, _ => some (.error, w)
  | n + 1, w, cur =>
    match cur with
    | .tab a => do
      let t ← w.tables a
      let tv ← (t.get g.hash k).toOption
      if !tv.isNil then some (.value tv, w)
      else do
        match ← metaFast g w t.metatable .index with
        | (w, none) => some (.value .nil, w)
        | (w, some (.func f)) => some (.call (.func f) [cur, k], w)
        | (w, some mo) => metaTget k n w mo
    | _ => do
      match ← metaLookup g w cur .index with
      | .nil => some (.error, w)
      | .func f => some (.call (.func f) [cur, k], w)
      | mo => metaTget k n w mo

/-- A raw store, which fails when the table would grow too large. -/
def rawStore (a : ℕ) (t : Option LuaTable) : Option (Access × World H) := t.map fun t => (.stored, w.setTable a t)

def isNaNKey : LuaValue → Bool
  | .num x => x.isNaN
  | _ => false

/-- The loop of `meta_tset`. -/
def metaTset (k v : LuaValue) : ℕ → World H → LuaValue → Option (Access × World H)
  | 0, w, _ => some (.error, w)
  | n + 1, w, cur =>
    match cur with
    | .tab a => do
      let t ← w.tables a
      let tv ← (t.get g.hash k).toOption
      if !tv.isNil then rawStore w a (t.set g.hash k v).toOption
      else do
        match ← metaFast g w t.metatable .newindex with
        | (w, none) =>
          if k.isNil || isNaNKey k then some (.error, w)
          else do
            let t ← w.tables a
            rawStore w a (t.set g.hash k v).toOption
        | (w, some (.func f)) => some (.call (.func f) [cur, k, v], w)
        | (w, some mo) => metaTset k v n w mo
    | _ => do
      match ← metaLookup g w cur .newindex with
      | .nil => some (.error, w)
      | .func f => some (.call (.func f) [cur, k, v], w)
      | mo => metaTset k v n w mo

/-- `TGETV`, `TGETS` and `TGETB`, which differ in where the key comes from. -/
def tgetIns (o k : LuaValue) : Option (Access × World H) :=
  match o with
  | .tab a => do
    let t ← w.tables a
    let v ← tget g.hash t k
    if !v.isNil || t.metatable.isNone then some (.value v, w) else metaTget g k LJ_MAX_IDXCHAIN w o
  | _ => metaTget g k LJ_MAX_IDXCHAIN w o

/-- `TSETV`, `TSETS` and `TSETB`. -/
def tsetIns (o k v : LuaValue) : Option (Access × World H) :=
  match o with
  | .tab a => do
    let t ← w.tables a
    if t.metatable.isNone then
      if k.isNil || isNaNKey k then some (.error, w) else rawStore w a (tset g.hash t k v)
    else metaTset g k v LJ_MAX_IDXCHAIN w o
  | _ => metaTset g k v LJ_MAX_IDXCHAIN w o

end
end LuajitRs.Vm
