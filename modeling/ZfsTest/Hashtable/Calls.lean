import ZfsTest.Hashtable.Code

/-!
# Locating, inserting, deleting and resizing

The client functions of `libhashtable.c` as programs. The options and the key size of a table never change after
`ht_create`, so each function reads them once.

`call` gives the program of a client call; `runCall` and `runCalls` run calls one after the other in one thread.
-/

namespace ZfsTest.Hashtable

section

variable (c : Conf)

/-! ## Locating -/

/-- The walk of `ht_locate_entry_` from the locked entry `dhte`; `phte` is the entry before it, still locked. -/
def htLocateWalk (h : Addr) (key len : Nat) (lockfunc : LockOp) (previous : Bool) :
    Nat → Nat → Option EntryPtr → EntryPtr → Code (Option (EntryPtr × Option EntryPtr))
  | 0, _, _, _ => fault
  | fuel + 1, depth, phte, dhte => do
    let k ← getKey dhte
    if c.keyCompare k key len ≠ 0 then
      let depth := depth + 1
      match ← getNext dhte with
      | none =>
        setErrno ENOENT
        match phte with
        | some pphte =>
          void (unlock (.entry pphte))
          void (unlock (.entry dhte))
          void (htAverageIncrement h .searches (UInt64.ofNat depth))
          return none
        | none =>
          void (unlock (.entry dhte))
          void (htAverageIncrement h .searches (UInt64.ofNat depth))
          return none
      | some next =>
        let ret ← lockCall lockfunc (.entry next)
        if ret ≠ 0 then
          match phte with
          | some pphte =>
            void (unlock (.entry pphte))
            void (unlock (.entry dhte))
            void (htAverageIncrement h .searches (UInt64.ofNat depth))
            void (htCounterAdd h .errors 1)
            return none
          | none =>
            void (unlock (.entry dhte))
            void (htAverageIncrement h .searches (UInt64.ofNat depth))
            void (htCounterAdd h .errors 1)
            return none
        else
          match phte with
          | some pphte =>
            let ret ← unlock (.entry pphte)
            if ret ≠ 0 then
              void (unlock (.entry dhte))
              void (unlock (.entry next))
              void (htAverageIncrement h .searches (UInt64.ofNat depth))
              void (htCounterAdd h .errors 1)
              setErrno ret
              return none
            else
              htLocateWalk h key len lockfunc previous fuel depth (some dhte) next
          | none =>
            htLocateWalk h key len lockfunc previous fuel depth (some dhte) next
    else
      void (htAverageIncrement h .searches (UInt64.ofNat depth))
      void (htCounterAdd h .hits 1)
      if previous then
        return some (dhte, phte)
      else
        match phte with
        | some p =>
          let ret ← unlock (.entry p)
          if ret ≠ 0 then
            void (unlock (.entry dhte))
            void (htCounterAdd h .errors 1)
            setErrno ret
            return none
          else
            return some (dhte, none)
        | none => return some (dhte, none)

/-- The entry found, locked, and the entry before it, which stays locked when the caller asks for it (`previous`). -/
def htLocateEntry_ (h : Addr) (key : Nat) (lockfunc : LockOp) (previous : Bool) :
    Code (Option (EntryPtr × Option EntryPtr)) := do
  void (htCounterAdd h .probes 1)
  let keysize ← getKeysize h
  let len := c.sizeOfInt keysize
  let t ← getTable h .count
  let n ← getEntrycount t
  let hashIndex ← hashCompute c key len n
  let t ← getTable h .entry
  let dhte ← getEntry t hashIndex
  let ret ← lockCall lockfunc (.entry dhte)
  if ret ≠ 0 then
    void (htCounterAdd h .errors 1)
    return none
  else
    let f ← getFlags dhte
    if !f.occupied then
      setErrno ENOENT
      void (unlock (.entry dhte))
      return none
    else
      let fuel ← bound
      htLocateWalk c h key len lockfunc previous fuel 0 none dhte

def htLocateEntry (h : Addr) (key : Nat) : Code (Option EntryPtr) := do
  let e ← rdlock (.table h)
  setErrno e
  if e ≠ 0 then
    void (htCounterAdd h .errors 1)
    return none
  else
    let hte ← htLocateEntry_ c h key .rdlock false
    let ret ← unlock (.table h)
    if ret ≠ 0 then
      match hte with
      | some (hte, _) =>
        void (unlock (.entry hte))
        void (htCounterAdd h .errors 1)
        setErrno ret
        return none
      | none =>
        void (htCounterAdd h .errors 1)
        setErrno ret
        return none
    else
      return hte.map (·.1)

def htLocateKey (h : Addr) (key : Nat) : Code Nat := do
  match ← htLocateEntry c h key with
  | none => return 0
  | some hte =>
    let data ← getData hte
    let ret ← unlock (.entry hte)
    if ret ≠ 0 then
      void (htCounterAdd h .errors 1)
      setErrno ret
      return 0
    else
      return data

/-! ## Inserting -/

/-- The search for a duplicate from `ohte`: the depth reached, or the depth of the match. -/
def insertWalk (key len : Nat) (dups : Bool) : Nat → Nat → Option EntryPtr → Code (Nat × Bool)
  | 0, _, _ => fault
  | _ + 1, depth, none => return (depth, false)
  | fuel + 1, depth, some ohte => do
    if !dups then
      let k ← getKey ohte
      if c.keyCompare k key len = 0 then
        return (depth, true)
      else
        let next ← getNext ohte
        insertWalk key len dups fuel (depth + 1) next
    else
      let next ← getNext ohte
      insertWalk key len dups fuel (depth + 1) next

/-- "Dangle all the entries from the free chain", the last of the slab first. -/
def dangle (h slab : Addr) : Nat → Code Unit
  | 0 => return ()
  | i + 1 => do
    let freechain ← getFreechain h
    setNext (slab, i) freechain
    setFreechain h (some (slab, i))
    dangle h slab i

/-- The first entry of the free chain, filled by a new slab when it is empty. -/
def takeFree (h : Addr) : Nat → Code (Option EntryPtr)
  | 0 => fault
  | rounds + 1 => do
    match ← getFreechain h with
    | some ohte => return some ohte
    | none =>
      let t ← getTable h .count
      let n ← getEntrycount t
      match ← htCreateSlab n with
      | none => return none
      | some slab =>
        void (htCounterAdd h .slabs 1)
        let slabs ← getSlabs h
        setSlabNext slab slabs
        setSlabs h (some slab)
        let count ← getEntrycount slab
        dangle h slab count
        let count := UInt64.ofNat count
        let fc ← getAverage h .freechain
        void (htAverageUpdate h .freechain 1 count (fc.current + count) (fc.current + count))
        takeFree h rounds

/-- The entry `ohte` filled and hung behind the head `dhte`. -/
def linkEntry (dhte ohte : EntryPtr) (key data : Nat) : Code Unit := do
  let f ← getFlags ohte
  setFlags ohte { f with occupied := true }
  setKey ohte key
  setData ohte data
  let next ← getNext dhte
  setNext ohte next
  setNext dhte (some ohte)

/-- The part of `ht_insert_key` from the free entry `ohte` on: the entry is hung behind the head `dhte`. -/
def insertTaken (resize : Addr → Nat → Code Int) (h : Addr) (dhte ohte : EntryPtr) (key data : Nat) (options : Options)
    (depth : Nat) : Code Int := do
  let next ← getNext ohte
  setFreechain h next
  setNext ohte none
  let fc ← getAverage h .freechain
  void (htAverageIncrement h .freechain (fc.current - 1))
  let ret ← unlock (.free h)
  onFail ret do
    void (htCounterAdd h .errors 1)
    keepErrno ret
  linkEntry dhte ohte key data
  void (htAverageIncrement h .depth (UInt64.ofNat depth))
  let ret ← unlock (.entry dhte)
  if ret ≠ 0 then
    void (htCounterAdd h .errors 1)
    keepErrno ret
    return -2
  else
    match options.resizeImplicit, ← getThreshold h with
    | true, some evaluate =>
      let t ← getTable h .count
      let n ← getEntrycount t
      let d ← getAverage h .depth
      let s ← getAverage h .searches
      if evaluate n d.count d.sum s.count s.sum ≠ 0 then
        let t ← getTable h .count
        let n ← getEntrycount t
        resize h (n * 2 % 2 ^ c.bits)
      else
        return 0
    | _, _ => return 0

/-- The part of `ht_insert_key` behind the duplicate search. -/
def insertChained (resize : Addr → Nat → Code Int) (h : Addr) (dhte : EntryPtr) (key data : Nat) (options : Options)
    (depth : Nat) : Code Int := do
  let ret ← wrlock (.free h)
  if ret ≠ 0 then
    void (unlock (.entry dhte))
    void (htCounterAdd h .errors 1)
    keepErrno ret
    return -2
  else
    match ← takeFree h 2 with
    | none =>
      void (unlock (.free h))
      void (unlock (.entry dhte))
      void (htCounterAdd h .errors 1)
      return -1
    | some ohte => insertTaken c resize h dhte ohte key data options depth

/-- `ht_insert_key`, with the function it calls to resize. -/
def insertKeyWith (resize : Addr → Nat → Code Int) (h : Addr) (key data : Nat) : Code Int := do
  void (htCounterAdd h .inserts 1)
  let e ← wrlock (.table h)
  setErrno e
  if e ≠ 0 then
    void (htCounterAdd h .errors 1)
    return -2
  else
    void (htCounterAdd h .probes 1)
    let keysize ← getKeysize h
    let len := c.sizeOfInt keysize
    let options ← getOptions h
    let t ← getTable h .count
    let n ← getEntrycount t
    let hashIndex ← hashCompute c key len n
    let t ← getTable h .entry
    let dhte ← getEntry t hashIndex
    let ret ← wrlock (.entry dhte)
    if ret ≠ 0 then
      void (unlock (.table h))
      void (htCounterAdd h .errors 1)
      setErrno ret
      return -2
    else
      let ret ← unlock (.table h)
      if ret ≠ 0 then
        void (unlock (.entry dhte))
        void (htCounterAdd h .errors 1)
        setErrno ret
        return -2
      else
        let f ← getFlags dhte
        if !f.occupied then
          setFlags dhte { f with occupied := true }
          setKey dhte key
          setData dhte data
          let ret ← unlock (.entry dhte)
          if ret ≠ 0 then
            void (htCounterAdd h .errors 1)
            setErrno ret
            return -2
          else
            return 0
        else
          let fuel ← bound
          let (depth, found) ← insertWalk c key len options.dupsAllowed fuel 0 (some dhte)
          if found then
            void (htAverageIncrement h .searches (UInt64.ofNat depth))
            void (htCounterAdd h .hits 1)
            setErrno EEXIST
            let ret ← unlock (.entry dhte)
            if ret ≠ 0 then
              void (htCounterAdd h .errors 1)
              setErrno ret
              return -2
            else
              return -1
          else if options.dupsAllowed then
            insertChained c resize h dhte key data options depth
          else
            void (htAverageIncrement h .searches (UInt64.ofNat depth))
            insertChained c resize h dhte key data options depth

/-! ## Deleting -/

/-- The part of `ht_delete_key` that moves the locked entry `dhte` from behind `phte` to the free chain. -/
def unlinkEntry (h : Addr) (phte dhte : EntryPtr) : Code Nat := do
  let f ← getFlags dhte
  setFlags dhte { f with occupied := false }
  let ret ← wrlock (.free h)
  if ret ≠ 0 then
    void (unlock (.entry phte))
    void (unlock (.entry dhte))
    void (htCounterAdd h .errors 1)
    setErrno ret
    return 0
  else
    let next ← getNext dhte
    setNext phte next
    let freechain ← getFreechain h
    setNext dhte freechain
    setFreechain h (some dhte)
    let fret ← unlock (.free h)
    onFail fret (void (htCounterAdd h .errors 1))
    let pret ← unlock (.entry phte)
    onFail pret (void (htCounterAdd h .errors 1))
    let e ← unlock (.entry dhte)
    setErrno e
    onFail e (void (htCounterAdd h .errors 1))
    onFail (if fret ≠ 0 then fret else pret) (setErrno (if fret ≠ 0 then fret else pret))
    let e ← getErrno
    if e ≠ 0 then
      return 0
    else
      getData dhte

/-- The part of `ht_delete_key` behind the search: `dhte` is locked, and so is the entry before it, if there is one. -/
def deleteFound (h : Addr) (dhte : EntryPtr) : Option EntryPtr → Code Nat
  | some phte => unlinkEntry h phte dhte
  | none => do
    match ← getNext dhte with
    | none =>
      -- the entry stays locked, as in the source
      let f ← getFlags dhte
      setFlags dhte { f with occupied := false }
      getData dhte
    | some next =>
      let phte := dhte
      let dhte := next
      let ret ← wrlock (.entry dhte)
      if ret ≠ 0 then
        void (unlock (.entry phte))
        void (htCounterAdd h .errors 1)
        setErrno ret
        return 0
      else
        let k ← getKey dhte
        setKey phte k
        let d ← getData dhte
        setData phte d
        let f ← getFlags dhte
        setFlags phte f
        unlinkEntry h phte dhte

def htDeleteKey (h : Addr) (key : Nat) : Code Nat := do
  void (htCounterAdd h .deletes 1)
  let e ← wrlock (.table h)
  setErrno e
  if e ≠ 0 then
    void (htCounterAdd h .errors 1)
    return 0
  else
    let found ← htLocateEntry_ c h key .wrlock true
    let ret ← unlock (.table h)
    match found with
    | none => return 0
    | some (dhte, phte) =>
      if ret ≠ 0 then
        void (htCounterAdd h .errors 1)
        void (unlock (.entry dhte))
        setErrno ret
        return 0
      else
        deleteFound h dhte phte

/-! ## Resizing -/

/-- The chain behind `chte`, inserted in the new table. -/
def copyChain (insert : Nat → Nat → Code Int) : Nat → EntryPtr → Code Int
  | 0, _ => fault
  | fuel + 1, chte => do
    match ← getNext chte with
    | none => return 0
    | some chte =>
      let k ← getKey chte
      let d ← getData chte
      let ret ← insert k d
      if ret ≠ 0 then
        return ret
      else
        copyChain insert fuel chte

/-- The entries of the old table, the last bucket first. -/
def copyTable (insert : Nat → Nat → Code Int) (t : Addr) : Nat → Code Int
  | 0 => return 0
  | i + 1 => do
    let f ← getFlags (t, i)
    let ret ← guarded f.occupied do
      let k ← getKey (t, i)
      let d ← getData (t, i)
      insert k d
    if ret ≠ 0 then
      return ret
    else
      let fuel ← bound
      let ret ← copyChain insert fuel (t, i)
      if ret ≠ 0 then
        return ret
      else
        copyTable insert t i

/-- The counters of the new table head added to those of the table. -/
def mergeCounters (h nht : Addr) : List CounterId → Code Unit
  | [] => return ()
  | i :: is => do
    let v ← getCounter nht i
    void (htCounterAdd h i v)
    mergeCounters h nht is

/-- The averages of the new table head added to those of the table. -/
def mergeAverages (h nht : Addr) : List AverageId → Code Unit
  | [] => return ()
  | i :: is => do
    let v ← getAverage nht i
    void (htAverageUpdate h i v.count v.sum v.current v.maximum)
    mergeAverages h nht is

/-- Slab lists, free chains and tables of the two heads change places. -/
def swapTables (h nht : Addr) : Code Unit := do
  let slabs ← getSlabs h
  let nslabs ← getSlabs nht
  setSlabs h nslabs
  setSlabs nht slabs
  let hte ← getFreechain h
  let nhte ← getFreechain nht
  setFreechain h nhte
  setFreechain nht hte
  let t ← readTable h .entry
  let nt ← readTable nht .entry
  setTable h nt
  setTable nht t

/-- The new table is given up: the part of `ht_resize` after a failed insertion or lock. -/
def abandonNew (h nht : Addr) : Code Unit := do
  void (htCounterAdd h .errors 1)
  let ret ← htDestroy nht
  if ret = 0 then
    setOld h none
  else
    return ()

/-- The part of `ht_resize` behind the sweep; `fret`, `tret` and `sret` are the results of the calls before it. -/
def endResize (h nht : Addr) (fret tret sret : Int) : Code Int := do
  onFail sret (void (htCounterAdd h .errors 1))
  let dret ← if tret = 0 ∧ sret = 0 then htDestroy nht else pure 1
  if dret = 0 then
    setOld h none
  else
    void (htCounterAdd h .errors 1)
  let ret ← unlock (.resize h)
  onFail ret (void (htCounterAdd h .errors 1))
  setErrno (if fret ≠ 0 then fret else if tret ≠ 0 then tret else if sret ≠ 0 then sret else ret)
  return if fret ≠ 0 ∨ tret ≠ 0 ∨ ret ≠ 0 then -2 else if sret ≠ 0 then -1 else 0

/-- The part of `ht_resize` behind the swap. -/
def finishResize (h nht : Addr) : Code Int := do
  let fret ← unlock (.free h)
  onFail fret (void (htCounterAdd h .errors 1))
  let tret ← unlock (.table h)
  onFail tret (void (htCounterAdd h .errors 1))
  let sret ← htSweep nht
  endResize h nht fret tret sret

/-- `ht_resize`, with the function that fills the new table. -/
def resizeWith (insertKey : Addr → Nat → Nat → Code Int) (h : Addr) (numents : Nat) : Code Int := do
  let e ← wrlock (.resize h)
  setErrno e
  if e ≠ 0 then
    void (htCounterAdd h .errors 1)
    return -2
  else
    let e ← rdlock (.table h)
    setErrno e
    if e ≠ 0 then
      void (htCounterAdd h .errors 1)
      void (unlock (.resize h))
      return -2
    else
      let keysize ← getKeysize h
      let options ← getOptions h
      match ← htCreate numents (c.sizeOfInt keysize) { options with resizeImplicit := false } with
      | none =>
        void (htCounterAdd h .errors 1)
        void (unlock (.table h))
        void (unlock (.resize h))
        return -1
      | some nht =>
        let old ← getOld h
        setOld nht old
        setOld h (some nht)
        let t ← getTable h .entry
        let n ← getEntrycount t
        let ret ← copyTable (insertKey nht) t n
        if ret ≠ 0 then
          abandonNew h nht
          void (unlock (.table h))
          void (unlock (.resize h))
          return -1
        else
          let ret ← wrlock (.free h)
          if ret ≠ 0 then
            abandonNew h nht
            setErrno ret
            void (unlock (.table h))
            void (unlock (.resize h))
            return -2
          else
            swapTables h nht
            mergeCounters h nht [.probes, .hits, .errors, .resizes, .inserts, .deletes]
            mergeAverages h nht [.searches, .depth, .freechain]
            finishResize h nht

/-- `ht_insert_key` on a table without implicit resizing. -/
def insertKeyNoResize : Addr → Nat → Nat → Code Int := insertKeyWith c fun _ _ => fault

def htResize (h : Addr) (numents : Nat) : Code Int := resizeWith c (insertKeyNoResize c) h numents

def htInsertKey (h : Addr) (key data : Nat) : Code Int := insertKeyWith c (htResize c) h key data

/-! ## Client calls -/

/-- A call on a table; a `size_t` is given by its value. -/
inductive Call
  | insert (key data : Nat)
  | delete (key : Nat)
  | locate (key : Nat)
  | resize (numents : Nat)
  deriving DecidableEq, Repr

/-- The program of a call. A pointer is returned as its address. -/
def callCode (h : Addr) : Call → Code Int
  | .insert key data => htInsertKey c h key data
  | .delete key => do
    let d ← htDeleteKey c h key
    return d
  | .locate key => do
    let d ← htLocateKey c h key
    return d
  | .resize numents => htResize c h numents

/-- What the caller sees of a call: its result and `errno`. -/
structure Reply where
  ret : Int
  errno : Int
  deriving DecidableEq, Repr

/-- A call in one thread; `none` when it faults. -/
def runCall (env : Env) (h : Addr) (a : Call) (w : World) : Option (Reply × World) :=
  ((callCode c h a).exec (step env) w).map fun x => (⟨x.1, x.2.book.errno⟩, x.2)

/-- Calls one after the other. -/
def runCalls (env : Env) (h : Addr) : List Call → World → Option (List Reply × World)
  | [], w => some ([], w)
  | a :: as, w =>
    match runCall c env h a w with
    | none => none
    | some (r, w₁) => (runCalls env h as w₁).map fun x => (r :: x.1, x.2)

end

end ZfsTest.Hashtable
