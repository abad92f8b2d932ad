import LwMix.Types

/-!
# `player.c`

`createPlayer`, `addPlayer` and `removePlayer`, as the code computes them on the heap and on
`server_info`. The address that a `malloc` returns is an argument (with the indeterminate content of
the new block): any address that is not live, freed ones included. The search loop of `removePlayer`
has a fuel argument; `Chain.lean` shows that a finite list needs one unit more than its length.
-/

namespace LwMix

open Heap (Malloc)

/-- The new block's address is returned by `malloc`; only `socket` is set. -/
def createPlayer (socket : Int) (new : Malloc Player) (m : Mem) : Except Fault (ℕ × Mem) := do
  let m ← m.malloc new.addr (.player new.junk)
  let m ← m.modifyPlayer new.addr fun p => { p with socket := socket }
  pure (new.addr, m)

/-- The new node of `addPlayer`, linked at the end of the list. The branch is chosen by the counter. -/
def linkNode (new : Malloc PlayerNode) (m : Mem) : Except Fault Mem :=
  if m.info.playerCount = 0 then do
    -- A new list head for the first player, which is also the end of the list.
    let m ← m.malloc new.addr (.node new.junk)
    let m := m.setPlayerList new.addr
    pure (m.setEndPlayerList m.info.playerList)
  else do
    let m ← m.malloc new.addr (.node new.junk)
    let m ← m.modifyNode m.info.endPlayerList fun n => { n with next := new.addr }
    let e ← m.node m.info.endPlayerList
    pure (m.setEndPlayerList e.next)

/-- Add a player to the list of players. -/
def addPlayer (p : ℕ) (new : Malloc PlayerNode) (m : Mem) : Except Fault Mem := do
  let m ← linkNode new m
  let m ← m.modifyNode m.info.endPlayerList fun n => { n with player := p }
  let m ← m.modifyNode m.info.endPlayerList fun n => { n with next := 0 }
  m.addPlayerCount 1

/-- The locals of `removePlayer`: `prev_player`, `it_player`, `found_player`. -/
structure Search where
  prev : ℕ
  it : ℕ
  found : ℕ
  deriving DecidableEq, Repr

/-- The search loop of `removePlayer`. -/
def searchLoop (socket : Int) (m : Mem) : ℕ → Search → Except Fault Search
  | 0, _ => .error .fuel
  | fuel + 1, s =>
    if s.it ≠ 0 ∧ s.found = 0 then do
      let n ← m.node s.it
      let p ← m.player n.player
      if socket = p.socket then searchLoop socket m fuel { s with found := n.player }
      else searchLoop socket m fuel { s with prev := s.it, it := n.next }
    else pure s

/-- The node `it_player` is taken out of the list. -/
def unlinkNode (s : Search) (m : Mem) : Except Fault Mem :=
  if s.prev = 0 then do
    -- The head of the list: there is no previous player.
    let hd ← m.node m.info.playerList
    let m := m.setPlayerList hd.next
    if m.info.playerList = 0 then m.free m.info.playerList else pure m
  else do
    let n ← m.node s.it
    m.modifyNode s.prev fun q => { q with next := n.next }

/-- Remove a player from the list of players: the first one with this socket. -/
def removePlayer (socket : Int) (fuel : ℕ) (m : Mem) : Except Fault Mem :=
  if m.info.playerList = 0 then pure m
  else do
    let s ← searchLoop socket m fuel { prev := 0, it := m.info.playerList, found := 0 }
    if s.found ≠ 0 then do
      let m ← unlinkNode s m
      let m ← m.free s.it
      let m ← m.free s.found
      m.addPlayerCount (-1)
    else pure m

end LwMix
