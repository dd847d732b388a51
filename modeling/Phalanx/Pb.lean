import Phalanx.Go.Coder

/-! The messages of package `pb` and their JSON. A field without a tag is a member under its
own name; slices and pointers may be nil, which is written as null. -/
namespace Phalanx.Pb

open Go

structure LogEntry where
  index : UInt64 := 0
  term : UInt64 := 0
  data : Option (List UInt8) := none
  type : UInt8 := 0
deriving DecidableEq

def entryCommand : UInt8 := 0

def entryConfigChange : UInt8 := 1

structure AppendEntriesRequest where
  term : UInt64 := 0
  leaderID : String := ""
  prevLogIndex : UInt64 := 0
  prevLogTerm : UInt64 := 0
  entries : Option (List (Option LogEntry)) := none
  leaderCommit : UInt64 := 0
deriving DecidableEq

structure AppendEntriesResponse where
  term : UInt64 := 0
  success : Bool := false
  lastLogIndex : UInt64 := 0
deriving DecidableEq

structure RequestVoteRequest where
  term : UInt64 := 0
  candidateID : String := ""
  lastLogIndex : UInt64 := 0
  lastLogTerm : UInt64 := 0
  isPreVote : Bool := false
deriving DecidableEq

structure RequestVoteResponse where
  term : UInt64 := 0
  voteGranted : Bool := false
  isPreVote : Bool := false
deriving DecidableEq

structure ReadResponse where
  value : List UInt8 := []
  found : Bool := false
  leaderAddr : List UInt8 := []
  error : List UInt8 := []
deriving DecidableEq

def ascii (name : String) : List UInt8 := name.toUTF8.data.toList

namespace Codec

open Coder

def logEntry : Coder LogEntry :=
  struct {}
    [field (ascii "Index") uint64 (·.index) fun e index => { e with index },
      field (ascii "Term") uint64 (·.term) fun e term => { e with term },
      field (ascii "Data") bytes (·.data) fun e data => { e with data },
      field (ascii "Type") uint8 (·.type) fun e type => { e with type }]
    id (by decide) fun _ =>
      fillOwn_field rfl (fillOwn_field rfl (fillOwn_field rfl (fillOwn_field rfl rfl)))

def entries : Coder (Option (List (Option LogEntry))) :=
  slice (pointer logEntry fun _ => ⟨_, rfl⟩)

theorem settle_entries (l : Option (List (Option LogEntry))) : entries.settle l = l := by
  have hentry : (pointer logEntry fun _ => ⟨_, rfl⟩).settle = id := Option.map_id
  change Option.map (List.map (pointer logEntry fun _ => ⟨_, rfl⟩).settle) l = l
  rw [hentry, List.map_id_fun, Option.map_id_apply]

def appendEntriesRequest : Coder AppendEntriesRequest :=
  struct {}
    [field (ascii "Term") uint64 (·.term) fun r term => { r with term },
      field (ascii "LeaderID") text (·.leaderID) fun r leaderID => { r with leaderID },
      field (ascii "PrevLogIndex") uint64 (·.prevLogIndex)
        fun r prevLogIndex => { r with prevLogIndex },
      field (ascii "PrevLogTerm") uint64 (·.prevLogTerm)
        fun r prevLogTerm => { r with prevLogTerm },
      field (ascii "Entries") entries (·.entries) fun r entries => { r with entries },
      field (ascii "LeaderCommit") uint64 (·.leaderCommit)
        fun r leaderCommit => { r with leaderCommit }]
    id (by decide) fun r =>
      fillOwn_field rfl (fillOwn_field rfl (fillOwn_field rfl (fillOwn_field rfl
        (fillOwn_field rfl (fillOwn_field rfl (by rw [settle_entries]; rfl))))))

def appendEntriesResponse : Coder AppendEntriesResponse :=
  struct {}
    [field (ascii "Term") uint64 (·.term) fun r term => { r with term },
      field (ascii "Success") boolean (·.success) fun r success => { r with success },
      field (ascii "LastLogIndex") uint64 (·.lastLogIndex)
        fun r lastLogIndex => { r with lastLogIndex }]
    id (by decide) fun _ =>
      fillOwn_field rfl (fillOwn_field rfl (fillOwn_field rfl rfl))

def requestVoteRequest : Coder RequestVoteRequest :=
  struct {}
    [field (ascii "Term") uint64 (·.term) fun r term => { r with term },
      field (ascii "CandidateID") text (·.candidateID) fun r candidateID => { r with candidateID },
      field (ascii "LastLogIndex") uint64 (·.lastLogIndex)
        fun r lastLogIndex => { r with lastLogIndex },
      field (ascii "LastLogTerm") uint64 (·.lastLogTerm)
        fun r lastLogTerm => { r with lastLogTerm },
      field (ascii "IsPreVote") boolean (·.isPreVote) fun r isPreVote => { r with isPreVote }]
    id (by decide) fun _ =>
      fillOwn_field rfl (fillOwn_field rfl (fillOwn_field rfl (fillOwn_field rfl
        (fillOwn_field rfl rfl))))

def requestVoteResponse : Coder RequestVoteResponse :=
  struct {}
    [field (ascii "Term") uint64 (·.term) fun r term => { r with term },
      field (ascii "VoteGranted") boolean (·.voteGranted)
        fun r voteGranted => { r with voteGranted },
      field (ascii "IsPreVote") boolean (·.isPreVote) fun r isPreVote => { r with isPreVote }]
    id (by decide) fun _ =>
      fillOwn_field rfl (fillOwn_field rfl (fillOwn_field rfl rfl))

end Codec
end Phalanx.Pb
