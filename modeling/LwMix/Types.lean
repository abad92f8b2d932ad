import LwMix.Base.CString

/-!
# The data of the server (`common.h`, `player.h`)

`ServInfo` is `server_info`, with the fields that the modelled functions use. A `char[n]` that is
read as a string is a `CStr n`. `playerCount` is an `Int` in the range of `int` (its operations are
checked); an `int` that is only stored and printed is its 32-bit pattern.

A block of the heap is a `player_node` or a `player`; a pointer is the address of a block. `Mem` is
what the functions of `player.c` work on: the heap and `server_info`.
-/

namespace LwMix

/-- `player`: what the modelled functions read. -/
structure Player where
  socket : Int
  sernum : BitVec 32
  deriving DecidableEq, Inhabited, Repr

/-- `player_node`. -/
structure PlayerNode where
  player : ℕ
  next : ℕ
  deriving DecidableEq, Inhabited, Repr

/-- `serv_info`. -/
structure ServInfo where
  name : CStr 32
  port : CStr 16
  playerCount : Int
  playerList : ℕ
  endPlayerList : ℕ
  serverRules : CStr 128
  id : BitVec 32
  isPublic : Bool
  versionInt : BitVec 32
  gameId : BitVec 32
  game : CStr 5
  host : CStr 256
  info : CStr 128
  world : CStr 64
  deriving DecidableEq, Repr

/-- `server_info` of the empty server before the config file is read. -/
def ServInfo.blank : ServInfo where
  name := .empty (by decide)
  port := .empty (by decide)
  playerCount := 0
  playerList := 0
  endPlayerList := 0
  serverRules := .empty (by decide)
  id := 0
  isPublic := false
  versionInt := 0xA124
  gameId := 0
  game := .empty (by decide)
  host := .empty (by decide)
  info := .empty (by decide)
  world := .empty (by decide)

/-- The content of a heap block. -/
inductive Block where
  | node (n : PlayerNode)
  | player (p : Player)
  deriving DecidableEq, Repr

/-- The heap and `server_info`. -/
structure Mem where
  heap : Heap Block
  info : ServInfo

namespace Mem

variable {m m' : Mem} {a : ℕ} {n : PlayerNode} {p : Player}

/-- A `player_node` is read through the pointer `a`. -/
def node (m : Mem) (a : ℕ) : Except Fault PlayerNode :=
  match m.heap.cells a with
  | some (.node n) => .ok n
  | _ => .error (.badAccess a)

/-- A `player` is read through the pointer `a`. -/
def player (m : Mem) (a : ℕ) : Except Fault Player :=
  match m.heap.cells a with
  | some (.player p) => .ok p
  | _ => .error (.badAccess a)

theorem node_eq_ok : m.node a = .ok n ↔ m.heap.cells a = some (.node n) := by
  unfold node
  split <;> simp_all

theorem player_eq_ok : m.player a = .ok p ↔ m.heap.cells a = some (.player p) := by
  unfold player
  split <;> simp_all

theorem node_isOk : (m.node a).isOk ↔ ∃ n, m.heap.cells a = some (.node n) := by
  simp only [← node_eq_ok]
  cases m.node a <;> simp [Except.isOk, Except.toBool]

/-- The block at `a`, where a block is live, is overwritten. -/
def put (m : Mem) (a : ℕ) (b : Option Block) : Mem := { m with heap := m.heap.put a b }

@[simp] theorem put_info (b : Option Block) : (m.put a b).info = m.info := rfl

@[simp] theorem put_heap (b : Option Block) : (m.put a b).heap = m.heap.put a b := rfl

/-- `server_info.player_list = a`. -/
def setPlayerList (m : Mem) (a : ℕ) : Mem := { m with info := { m.info with playerList := a } }

/-- `server_info.end_player_list = a`. -/
def setEndPlayerList (m : Mem) (a : ℕ) : Mem := { m with info := { m.info with endPlayerList := a } }

/-- `server_info.player_count` is changed by `d`. -/
def addPlayerCount (m : Mem) (d : Int) : Except Fault Mem := do
  let c ← checkedInt (m.info.playerCount + d)
  pure { m with info := { m.info with playerCount := c } }

@[simp] theorem setPlayerList_heap : (m.setPlayerList a).heap = m.heap := rfl

@[simp] theorem setPlayerList_info :
    (m.setPlayerList a).info = { m.info with playerList := a } := rfl

@[simp] theorem setEndPlayerList_heap : (m.setEndPlayerList a).heap = m.heap := rfl

@[simp] theorem setEndPlayerList_info :
    (m.setEndPlayerList a).info = { m.info with endPlayerList := a } := rfl

theorem addPlayerCount_eq_ok {d : Int} : m.addPlayerCount d = .ok m' ↔
    (intMin ≤ m.info.playerCount + d ∧ m.info.playerCount + d ≤ intMax) ∧
      m' = { m with info := { m.info with playerCount := m.info.playerCount + d } } := by
  simp only [addPlayerCount, bind_eq_ok, checkedInt_eq_ok, pure_eq_ok]
  constructor
  · rintro ⟨c, ⟨hr, rfl⟩, rfl⟩
    exact ⟨hr, rfl⟩
  · rintro ⟨hr, rfl⟩
    exact ⟨_, ⟨hr, rfl⟩, rfl⟩

/-- A field of the `player_node` at `a` is written. -/
def modifyNode (m : Mem) (a : ℕ) (f : PlayerNode → PlayerNode) : Except Fault Mem := do
  let n ← m.node a
  pure (m.put a (some (.node (f n))))

/-- A field of the `player` at `a` is written. -/
def modifyPlayer (m : Mem) (a : ℕ) (f : Player → Player) : Except Fault Mem := do
  let p ← m.player a
  pure (m.put a (some (.player (f p))))

theorem modifyNode_eq_ok {f : PlayerNode → PlayerNode} :
    m.modifyNode a f = .ok m' ↔
      ∃ n, m.heap.cells a = some (.node n) ∧ m' = m.put a (some (.node (f n))) := by
  simp only [modifyNode, bind_eq_ok, node_eq_ok, pure_eq_ok]

theorem modifyPlayer_eq_ok {f : Player → Player} :
    m.modifyPlayer a f = .ok m' ↔
      ∃ p, m.heap.cells a = some (.player p) ∧ m' = m.put a (some (.player (f p))) := by
  simp only [modifyPlayer, bind_eq_ok, player_eq_ok, pure_eq_ok]

/-- `malloc` of a block that `b` is the content of. -/
def malloc (m : Mem) (a : ℕ) (b : Block) : Except Fault Mem := do
  let h ← m.heap.alloc a b
  pure { m with heap := h }

theorem malloc_eq_ok {b : Block} :
    m.malloc a b = .ok m' ↔ (a ≠ 0 ∧ m.heap.cells a = none) ∧ m' = m.put a (some b) := by
  simp only [malloc, bind_eq_ok, Heap.alloc_eq_ok, pure_eq_ok]
  constructor
  · rintro ⟨h, ⟨ha, rfl⟩, rfl⟩
    exact ⟨ha, rfl⟩
  · rintro ⟨ha, rfl⟩
    exact ⟨_, ⟨ha, rfl⟩, rfl⟩

/-- `free(a)`. -/
def free (m : Mem) (a : ℕ) : Except Fault Mem := do
  let h ← m.heap.free a
  pure { m with heap := h }

theorem free_null (m : Mem) : m.free 0 = .ok m := rfl

theorem free_of_live {b : Block} (ha : m.heap.cells a = some b) :
    m.free a = .ok (m.put a none) := by
  simp [free, Heap.free_of_live ha, bind, Except.bind, pure, Except.pure, put]

theorem free_info (h : m.free a = .ok m') : m'.info = m.info := by
  obtain ⟨h', -, h⟩ := bind_eq_ok.mp h
  obtain rfl := pure_eq_ok.mp h
  rfl

end Mem

end LwMix
