import LuajitRs.Runtime.Value

/-! The hybrid array and chained-hash table of the runtime. The array part holds the integer keys
below `asize`; every other key lives in the hash part, whose nodes are linked by index and whose
insertion follows Brent's variation. A panic of the code is a `Fault`, and a loop carries a fuel
that running out of is the fault `diverge`. -/
namespace LuajitRs

def LJ_MAX_ABITS : ℕ := 28
/-- Max. array part size. -/
def LJ_MAX_ASIZE : ℕ := 2^(LJ_MAX_ABITS - 1) + 1
def LJ_MAX_HBITS : ℕ := 26

/-- Null hash-chain index, `u32::MAX`. -/
def NIL_NODE : ℕ := 2^32 - 1

/-- A hash node; `next` is an index into `LuaTable.node`. -/
structure Node where
  val : LuaValue
  key : LuaValue
  next : ℕ
  deriving DecidableEq, Repr

def Node.EMPTY : Node := ⟨.nil, .nil, NIL_NODE⟩

def fls (x : ℕ) : ℕ := x.log2

/-- Number of hash bits needed for `s` slots. -/
def hsize2hbits (s : ℕ) : ℕ := if s = 0 then 0 else if s = 1 then 1 else 1 + fls (s - 1)

/-- `u32::next_power_of_two`, which wraps to zero when the result does not fit. -/
def nextPowerOfTwo (x : ℕ) : ℕ := if x ≤ 1 then 1 else 2^((x - 1).log2 + 1) % 2^32

/-- A Lua table. The raw array pointer and the two back pointers into the heap mirror or account
for what is here and are left out. -/
structure LuaTable where
  /-- Slot `i` holds the value of integer key `i`. -/
  array : List LuaValue
  /-- Hash part of `hmask + 1` nodes, or none at all when `hmask` is zero. -/
  node : List Node
  metatable : Option ℕ
  asize : ℕ
  hmask : ℕ
  /-- Top of the free-node search. -/
  freetop : ℕ
  /-- Negative metamethod cache. -/
  nomm : ℕ
  deriving DecidableEq, Repr

namespace LuaTable

def newHpart (t : LuaTable) (hbits : ℕ) : Except Fault LuaTable :=
  if LJ_MAX_HBITS < hbits then .error .tableOverflow
  else .ok { t with node := .replicate (2^hbits) .EMPTY, hmask := 2^hbits - 1, freetop := 2^hbits }

/-- A table with array slots `0..asize` and `2^hbits` nodes, or none for `hbits = 0`. -/
def new (asize hbits : ℕ) : Except Fault LuaTable :=
  if LJ_MAX_ASIZE < asize then .error .tableOverflow
  else if LJ_MAX_HBITS < hbits then .error .tableOverflow
  else
    let t : LuaTable := ⟨.replicate asize .nil, [], none, asize, 0, 0, 255⟩
    if hbits ≠ 0 then t.newHpart hbits else .ok t

/-! ### Access to slots and nodes -/

def hasHpart (t : LuaTable) : Bool := t.hmask ≠ 0

/-- A node by index; a table without a hash part shares one empty node. -/
def nodeSlot (t : LuaTable) (idx : ℕ) : Except Fault Node :=
  if 0 < t.hmask then
    match t.node[idx]? with
    | some nd => .ok nd
    | none => .error .outOfBounds
  else .ok .EMPTY

/-- A write through `node_slot_mut`. -/
def modifyNode (t : LuaTable) (idx : ℕ) (f : Node → Node) : Except Fault LuaTable :=
  if idx < t.node.length then .ok { t with node := t.node.modify idx f } else .error .outOfBounds

def setVal (t : LuaTable) (idx : ℕ) (v : LuaValue) : Except Fault LuaTable :=
  t.modifyNode idx fun nd => { nd with val := v }

def setKey (t : LuaTable) (idx : ℕ) (k : LuaValue) : Except Fault LuaTable :=
  t.modifyNode idx fun nd => { nd with key := k }

def setNext (t : LuaTable) (idx nx : ℕ) : Except Fault LuaTable :=
  t.modifyNode idx fun nd => { nd with next := nx }

def arrayAt (t : LuaTable) (i : ℕ) : Except Fault LuaValue :=
  match t.array[i]? with
  | some v => .ok v
  | none => .error .outOfBounds

def setArray (t : LuaTable) (i : ℕ) (v : LuaValue) : Except Fault LuaTable :=
  if i < t.array.length then .ok { t with array := t.array.set i v } else .error .outOfBounds

/-- Array index for a key that is a non-negative integer within range. -/
def arrayKey (key : LuaValue) : Option ℕ :=
  match key.asInt32Exact with
  | some k => if 0 ≤ k ∧ k.toNat < LJ_MAX_ASIZE then some k.toNat else none
  | none => none

/-- The array index of a key that the array part covers now. -/
def arrayIdx (t : LuaTable) (key : LuaValue) : Option ℕ :=
  match arrayKey key with
  | some i => if i < t.asize then some i else none
  | none => none

section Hash
variable (h : LuaValue → UInt32)

/-- The main position of `key`. -/
def hashSlot (t : LuaTable) (key : LuaValue) : ℕ := (h key).toNat &&& t.hmask

/-- The chain walk that the getters, the setters and `key_index` share: the first node from `n`
on that holds `key`. -/
def walk (t : LuaTable) (key : LuaValue) : ℕ → ℕ → Except Fault (Option ℕ)
  | 0, _ => .error .diverge
  | fuel+1, n => do
    let nd ← t.nodeSlot n
    if nd.key = key then pure (some n)
    else if nd.next = NIL_NODE then pure none
    else walk t key fuel nd.next

/-- A chain visits every node at most once, so the walk may take `node.len()` steps. -/
def findKey (t : LuaTable) (key : LuaValue) : Except Fault (Option ℕ) :=
  t.walk key (t.node.length + 1) (t.hashSlot h key)

/-! ### Getters -/

/-- The value in the chain of `key`, or nil. -/
def getChain (t : LuaTable) (key : LuaValue) : Except Fault LuaValue := do
  match ← t.findKey h key with
  | some n => do
    let nd ← t.nodeSlot n
    pure nd.val
  | none => pure .nil

def get (t : LuaTable) (key : LuaValue) : Except Fault LuaValue :=
  match t.arrayIdx key with
  | some i => t.arrayAt i
  | none => if key.isNil || !t.hasHpart then .ok .nil else t.getChain h key

/-- Integer-key get. -/
def getInt (t : LuaTable) (k : ℤ) : Except Fault LuaValue :=
  if 0 ≤ k ∧ k.toNat < t.asize then t.arrayAt k.toNat else t.get h (.ofInt k)

/-- String-key get. -/
def getStr (t : LuaTable) (key : LuaValue) : Except Fault LuaValue := t.getChain h key

/-! ### Traversal -/

/-- The traversal index that follows `key`; `none` stands for the invalid index `!0`. -/
def keyIndex (t : LuaTable) (key : LuaValue) : Except Fault (Option ℕ) :=
  if key.isNil then .ok (some 0)
  else match t.arrayIdx key with
    | some k => .ok (some (k + 1))
    | none =>
      if t.hasHpart then do
        match ← t.findKey h key with
        | some n => pure (some (t.asize + n + 1))
        | none => pure none
      else .ok none

/-- The first non-nil array slot among the `k` slots from `idx` on. -/
def nextArray (t : LuaTable) : ℕ → ℕ → Except Fault (Option (LuaValue × LuaValue))
  | 0, _ => .ok none
  | k+1, idx => do
    let v ← t.arrayAt idx
    if v.isNil then nextArray t k (idx + 1) else pure (some (.ofInt idx, v))

/-- The first non-nil node among the `k` nodes from `idx` on. -/
def nextHash (t : LuaTable) : ℕ → ℕ → Except Fault (Option (LuaValue × LuaValue))
  | 0, _ => .ok none
  | k+1, idx => do
    let nd ← t.nodeSlot idx
    if nd.val.isNil then nextHash t k (idx + 1) else pure (some (nd.key, nd.val))

/-- The entry at the first occupied traversal index from `idx` on. -/
def nextFrom (t : LuaTable) (idx : ℕ) : Except Fault (Option (LuaValue × LuaValue)) := do
  match ← t.nextArray (t.asize - idx) idx with
  | some kv => pure (some kv)
  | none =>
    if t.hasHpart then t.nextHash (t.hmask + 1 - (idx - t.asize)) (idx - t.asize) else pure none

/-- The key and value after `key`; nil starts the traversal and `none` ends it. -/
def next (t : LuaTable) (key : LuaValue) : Except Fault (Option (LuaValue × LuaValue)) := do
  match ← t.keyIndex h key with
  | some idx => t.nextFrom idx
  | none => pure none

/-! ### Choosing the sizes of a rehash -/

/-- The bucket of an array key: bucket `b` ends with the key `2 << b`. -/
def binOf (k : ℕ) : ℕ := if 2 < k then fls (k - 1) else 0

/-- The buckets of `count_array` from `b = LJ_MAX_ABITS - k` on; `i` is the next slot to count. -/
def countArrayFrom (t : LuaTable) : ℕ → ℕ → List ℕ → ℕ → List ℕ × ℕ
  | 0, _, bins, na => (bins, na)
  | k+1, i, bins, na =>
    let b := LJ_MAX_ABITS - (k+1)
    let top := if t.asize ≤ 2 * 2^b then t.asize - 1 else 2 * 2^b
    if t.asize ≤ 2 * 2^b ∧ top < i then (bins, na)
    else
      let n := ((t.array.drop i).take (top + 1 - i)).countP (!·.isNil)
      countArrayFrom t k (max i (top + 1)) (bins.modify b (· + n)) (na + n)

/-- Count integer array keys per power-of-two bucket. -/
def countArray (t : LuaTable) (bins : List ℕ) : List ℕ × ℕ :=
  if t.asize = 0 then (bins, 0) else t.countArrayFrom LJ_MAX_ABITS 0 bins 0

/-- Count an integer key; the second component is 1 if it was counted. -/
def countInt (key : LuaValue) (bins : List ℕ) : List ℕ × ℕ :=
  match arrayKey key with
  | some k => (bins.modify (binOf k) (· + 1), 1)
  | none => (bins, 0)

def countNodes : List Node → List ℕ × ℕ × ℕ → List ℕ × ℕ × ℕ
  | [], acc => acc
  | nd :: rest, (bins, na, total) =>
    if nd.val.isNil then countNodes rest (bins, na, total)
    else
      let (bins, c) := countInt nd.key bins
      countNodes rest (bins, na + c, total + 1)

/-- Count hash entries, folding integer keys into `bins`: the bins, the number of keys folded and
the number of entries. -/
def countHash (t : LuaTable) (bins : List ℕ) : List ℕ × ℕ × ℕ :=
  if t.hasHpart then countNodes t.node (bins, 0, 0) else (bins, 0, 0)

/-- The loop of `best_asize` over the bins from bucket `b` on, with the number `nn` of integer
keys, the running sum, and the best size and key count so far. -/
def bestAsizeFrom (nn : ℕ) : List ℕ → ℕ → ℕ → ℕ → ℕ → Except Fault (ℕ × ℕ)
  | bins, b, sum, na, sz =>
    if 2^b < 2 * nn ∧ sum ≠ nn then
      match bins with
      | [] => .error .outOfBounds
      | n :: rest =>
        if 0 < n then
          if 2^b < 2 * (sum + n) then bestAsizeFrom nn rest (b+1) (sum + n) (sum + n) (2 * 2^b + 1)
          else bestAsizeFrom nn rest (b+1) (sum + n) na sz
        else bestAsizeFrom nn rest (b+1) sum na sz
    else .ok (na, sz)

/-- The number of keys that go to the array part, and the array size. -/
def bestAsize (bins : List ℕ) (narray : ℕ) : Except Fault (ℕ × ℕ) :=
  bestAsizeFrom narray bins 0 0 0 0

/-! ### Resizing and insertion -/

/-- Setting one key of a table; `set` is a parameter of the functions that it calls itself through. -/
abbrev Setter := LuaTable → LuaValue → LuaValue → Except Fault LuaTable

def setAll (setf : Setter) (t : LuaTable) (entries : List (LuaValue × LuaValue)) : Except Fault LuaTable :=
  entries.foldlM (fun t e => setf t e.1 e.2) t

/-- The non-nil array slots from `asize` on. -/
def dropped (t : LuaTable) (asize : ℕ) : List (LuaValue × LuaValue) :=
  ((t.array.drop asize).zipIdx asize).filterMap fun (v, i) =>
    if v.isNil then none else some (.ofInt i, v)

/-- The entries of the hash part in node order. -/
def hashEntries (t : LuaTable) : List (LuaValue × LuaValue) :=
  if t.hasHpart then t.node.filterMap fun nd => if nd.val.isNil then none else some (nd.key, nd.val)
  else []

/-- The array part of a resize, when it grows; the old nodes are taken out. -/
def growArray (t : LuaTable) (asize : ℕ) : LuaTable :=
  if t.asize < asize then
    { t with array := t.array ++ .replicate (asize - t.array.length) .nil, asize := asize, node := [] }
  else { t with node := [] }

/-- The fresh hash part of a resize. -/
def resizeHpart (t : LuaTable) (hbits : ℕ) : Except Fault LuaTable :=
  if hbits ≠ 0 then t.newHpart hbits
  else if t.hmask ≠ 0 then .ok { t with hmask := 0, freetop := 0 } else .ok t

/-- The array part of a resize of `old`, when it shrinks: the dropped values are set again. -/
def shrinkArray (setf : Setter) (old t : LuaTable) (asize : ℕ) : Except Fault LuaTable :=
  if asize < old.asize then
    setAll setf { t with asize := asize, array := t.array.take asize } (old.dropped asize)
  else .ok t

/-- Resize to the given array and hash sizes, reinserting the dropped array slots and then the
entries of the old hash part. -/
def resizeWith (setf : Setter) (t : LuaTable) (asize hbits : ℕ) : Except Fault LuaTable :=
  if LJ_MAX_ASIZE < asize then .error .tableOverflow
  else do
    let sized ← (t.growArray asize).resizeHpart hbits
    let shrunk ← shrinkArray setf t sized asize
    setAll setf shrunk t.hashEntries

/-- Rehash the whole table to accommodate the extra key `ek`. -/
def rehashWith (setf : Setter) (t : LuaTable) (ek : LuaValue) : Except Fault LuaTable := do
  let (bins, narr) := t.countArray (.replicate LJ_MAX_ABITS 0)
  let (bins, nint, nhash) := t.countHash bins
  let (bins, nek) := countInt ek bins
  let (na, asize) ← bestAsize bins (narr + nint + nek)
  resizeWith setf t asize (hsize2hbits (1 + narr + nhash - na))

/-- The downward scan for a node whose key is nil. -/
def findFree (t : LuaTable) : ℕ → Except Fault (Option ℕ)
  | 0 => .ok none
  | f+1 => do
    let nd ← t.nodeSlot f
    if nd.key.isNil then pure (some f) else findFree t f

/-- The predecessor walk: from `pred` to the node that links to `n`. -/
def findPred (t : LuaTable) (n : ℕ) : ℕ → ℕ → Except Fault ℕ
  | 0, _ => .error .diverge
  | fuel+1, pred => do
    let nd ← t.nodeSlot pred
    if nd.next = n then pure pred else findPred t n fuel nd.next

/-- Insert a new key next to the occupant `nd` of its main position `n`, with the free node
`free`. -/
def collide (t : LuaTable) (key : LuaValue) (n : ℕ) (nd : Node) (free : ℕ) :
    Except Fault (LuaTable × Option ℕ) := do
  let main := t.hashSlot h nd.key
  if main ≠ n then
    -- The colliding node is not in its main position: move it away.
    let pred ← t.findPred n (t.node.length + 1) main
    let t ← t.setNext pred free
    let t ← t.modifyNode free fun _ => nd
    let t ← t.modifyNode n fun _ => ⟨.nil, key.normalizeKey, NIL_NODE⟩
    pure (t, some n)
  else
    let t ← t.setNext free nd.next
    let t ← t.setNext n free
    let t ← t.setKey free key.normalizeKey
    pure (t, some free)

/-- Insert a brand-new key and return its node, or none after a rehash. -/
def tryNewKey (setf : Setter) (t : LuaTable) (key : LuaValue) : Except Fault (LuaTable × Option ℕ) :=
  let t := { t with nomm := 0 }
  if !t.hasHpart then do
    let t ← t.rehashWith setf key
    pure (t, none)
  else do
    let n := t.hashSlot h key
    let nd ← t.nodeSlot n
    if nd.val.isNil then
      let t ← t.setKey n key.normalizeKey
      pure (t, some n)
    else
      match ← t.findFree t.freetop with
      | some free => ({ t with freetop := free } : LuaTable).collide h key n nd free
      | none => do
        let t ← t.rehashWith setf key
        pure (t, none)

def clearNomm (t : LuaTable) (key : LuaValue) : LuaTable := if key.isString then { t with nomm := 0 } else t

/-- One turn of the loop in `set`; after a rehash `setf` retries. -/
def setTurn (setf : Setter) (t : LuaTable) (key val : LuaValue) : Except Fault LuaTable :=
  match t.arrayIdx key with
  | some i => t.setArray i val
  | none => do
    match ← if t.hasHpart then t.findKey h key else pure none with
    | some n => t.setVal n val
    | none =>
      match ← t.tryNewKey h setf key with
      | (t, some slot) => t.setVal slot val
      | (t, none) => setf t key val

/-- `set` with a bound on its retries and on the recursion through `rehash` and `resize`. -/
def setD : ℕ → Setter
  | 0, _, _, _ => .error .diverge
  | d+1, t, key, val => (t.clearNomm key).setTurn h (setD d) key val

/-- The depth of `set`: a key that does not fit is set again after one rehash, and the
reinsertions of that rehash all fit. -/
def setDepth : ℕ := 2

def set : Setter := setD h setDepth

def resize (t : LuaTable) (asize hbits : ℕ) : Except Fault LuaTable := resizeWith (set h) t asize hbits

def rehash (t : LuaTable) (ek : LuaValue) : Except Fault LuaTable := rehashWith (set h) t ek

def hbits (t : LuaTable) : ℕ := if t.hmask = 0 then 0 else fls t.hmask + 1

/-- Grow the array part to cover the integer keys up to `nasize`. -/
def reasize (t : LuaTable) (nasize : ℕ) : Except Fault LuaTable :=
  t.resize h (min (nextPowerOfTwo ((nasize + 1) % 2^32)) LJ_MAX_ASIZE) t.hbits

/-- String-key set that reuses an existing node. -/
def setStr (t : LuaTable) (key val : LuaValue) : Except Fault LuaTable :=
  let t := { t with nomm := 0 }
  if !t.hasHpart then t.set h key val
  else do
    match ← t.findKey h key with
    | some n => t.setVal n val
    | none => t.set h key val

/-- Integer-key set; a non-nil store exactly at the top of the array part grows it. -/
def setInt (t : LuaTable) (k : ℤ) (v : LuaValue) : Except Fault LuaTable :=
  if 0 < k ∧ k.toNat < t.asize then t.setArray k.toNat v
  else if 0 < k ∧ k.toNat < LJ_MAX_ASIZE ∧ !v.isNil ∧ k.toNat = t.asize then do
    let t ← t.reasize h k.toNat
    t.setArray k.toNat v
  else t.set h (.ofInt k) v

end Hash
end LuaTable
end LuajitRs
