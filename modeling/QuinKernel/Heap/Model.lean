import QuinKernel.Vmm.Model

/-!
# The kernel heap (`heap.c`)

Block headers live in the heap's own bytes: `size` at offset 0, the `bool`
`free` at 8, `prev` at 16 and `next` at 24, 32 bytes in all. `Heap` is the
virtual memory the heap's range is read and written through (ordinary memory,
backed on first touch by the page-fault path) and the static `free_list`.

The loop of `kmalloc` runs on a bound that no well-formed list reaches; `none`
means it was reached.
-/

namespace QuinKernel

open Machine

/-- `HEAP_VBASE`. -/
def heapVbase : Word := 0xffffffff90000000

/-- `HEAP_SIZE`. -/
def heapSize : Word := 16 * 1024 * 1024

/-- `MIN_SPLIT_SIZE`. -/
def minSplitSize : Word := 16

/-- `sizeof(struct block_header)`. -/
def headerSize : Word := 32

/-- The heap's memory and `free_list`. -/
structure Heap where
  mem : Mem
  freeList : Word

/-- `struct block_header`. -/
structure BlockHeader where
  size : Word
  free : Bool
  prev : Word
  next : Word
  deriving DecidableEq

/-- The header at address `a`. -/
def header (m : Mem) (a : Nat) : BlockHeader where
  size := load64 m a
  free := m (a + 8) != 0
  prev := load64 m (a + 16)
  next := load64 m (a + 24)

/-- `node->size = size`, and so on. -/
def setSize (m : Mem) (node size : Word) : Mem := store64 m node.toNat size
def setFree (m : Mem) (node : Word) (free : Bool) : Mem :=
  store8 m (node.toNat + 8) (if free then 1 else 0)
def setPrev (m : Mem) (node prev : Word) : Mem := store64 m (node.toNat + 16) prev
def setNext (m : Mem) (node next : Word) : Mem := store64 m (node.toNat + 24) next

/-- `heap_init`, over the memory the heap's range holds. -/
def heapInit (v : Vmm) (m : Mem) : Except Panic (Heap × Vmm) :=
  match vmmRegisterLazyRegion v heapVbase (heapVbase + heapSize) vmmWritable with
  | (false, _) => .error ⟨"heap: failed to register lazy region", []⟩
  | (true, v) =>
      let m := setSize m heapVbase (heapSize - headerSize)
      let m := setFree m heapVbase true
      let m := setPrev m heapVbase 0
      let m := setNext m heapVbase 0
      .ok ({ mem := m, freeList := heapVbase }, v)

/-- The branch of `kmalloc` that splits `node`, `remaining` bytes left over. -/
def splitBlock (m : Mem) (node size remaining : Word) : Mem :=
  let newNode := node + headerSize + size
  let m := setSize m newNode (remaining - headerSize)
  let m := setFree m newNode true
  let m := setPrev m newNode node
  let m := setNext m newNode (header m node.toNat).next
  let m :=
    if (header m newNode.toNat).next ≠ 0 then
      setPrev m (header m newNode.toNat).next newNode
    else m
  let m := setSize m node size
  setNext m node newNode

/-- The loop of `kmalloc` from `node` on. -/
def kmallocFrom (m : Mem) (size : Word) : Nat → Word → Option (Word × Mem)
  | 0, _ => none
  | fuel + 1, node =>
      if node = 0 then some (0, m)
      else if !(header m node.toNat).free ∨ (header m node.toNat).size < size then
        kmallocFrom m size fuel (header m node.toNat).next
      else
        let remaining := (header m node.toNat).size - size
        let m :=
          if headerSize + minSplitSize ≤ remaining then splitBlock m node size remaining else m
        some (node + headerSize, setFree m node false)

/-- More iterations than there is room for headers. -/
def kmallocFuel : Nat := heapSize.toNat / headerSize.toNat + 1

/-- `kmalloc`: the pointer (0 is `NULL`) and the heap after. -/
def kmalloc (h : Heap) (size : Word) : Option (Word × Heap) :=
  if size = 0 then some (0, h)
  else
    (kmallocFrom h.mem (alignUp size minSplitSize) kmallocFuel h.freeList).map
      (fun (ptr, m) => (ptr, { h with mem := m }))

/-- The forward merge of `kfree`. -/
def mergeNext (m : Mem) (node : Word) : Mem :=
  let next := (header m node.toNat).next
  if next ≠ 0 ∧ (header m next.toNat).free then
    let m := setSize m node
      ((header m node.toNat).size + (headerSize + (header m next.toNat).size))
    let m := setNext m node (header m next.toNat).next
    let next := (header m node.toNat).next
    if next ≠ 0 then setPrev m next node else m
  else m

/-- The backward merge of `kfree`. -/
def mergePrev (m : Mem) (node : Word) : Mem :=
  let prev := (header m node.toNat).prev
  if prev ≠ 0 ∧ (header m prev.toNat).free then
    let m := setSize m prev
      ((header m prev.toNat).size + (headerSize + (header m node.toNat).size))
    let m := setNext m prev (header m node.toNat).next
    let next := (header m node.toNat).next
    if next ≠ 0 then setPrev m next (header m node.toNat).prev else m
  else m

/-- `kfree`. -/
def kfree (h : Heap) (ptr : Word) : Heap :=
  if ptr = 0 then h
  else
    let node := ptr - headerSize
    let m := setFree h.mem node true
    let m := mergeNext m node
    { h with mem := mergePrev m node }

end QuinKernel
