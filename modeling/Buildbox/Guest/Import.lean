import Buildbox.Guest.State

/-! The imports a guest may call, by their arguments, and what each of them does. -/

namespace Buildbox

inductive Import where
  | argsGet (table buffer : Address)
  | argsSizesGet (count size : Address)
  | environGet (table buffer : Address)
  | environSizesGet (count size : Address)
  | clockResGet (id : UInt32) (out : Address)
  | clockTimeGet (id : UInt32) (out : Address)
  | randomGet (buffer : Address) (length : UInt32)
  | fdAdvise (fd : Fd)
  | fdAllocate
  | fdClose (fd : Fd)
  | fdDatasync (fd : Fd)
  | fdFdstatGet (fd : Fd) (out : Address)
  | fdFdstatSetFlags (fd : Fd) (flags : UInt16)
  | fdFdstatSetRights (fd : Fd)
  | fdFilestatGet (fd : Fd) (out : Address)
  | fdFilestatSetSize (fd : Fd) (size : UInt64)
  | fdFilestatSetTimes (fd : Fd)
  | fdPread (fd : Fd) (array : Address) (count : UInt32) (offset : UInt64) (nread : Address)
  | fdPrestatGet (fd : Fd) (out : Address)
  | fdPrestatDirName (fd : Fd) (path : Address) (length : UInt32)
  | fdPwrite (fd : Fd) (array : Address) (count : UInt32) (offset : UInt64) (nwritten : Address)
  | fdRead (fd : Fd) (array : Address) (count : UInt32) (nread : Address)
  | fdReaddir (fd : Fd) (buffer : Address) (length : UInt32) (cookie : UInt64) (used : Address)
  | fdRenumber (fd target : Fd)
  | fdSeek (fd : Fd) (offset : Int64) (whence : UInt8) (out : Address)
  | fdSync (fd : Fd)
  | fdTell (fd : Fd) (out : Address)
  | fdWrite (fd : Fd) (array : Address) (count : UInt32) (nwritten : Address)
  | pathCreateDirectory (fd : Fd) (path : Address) (length : UInt32)
  | pathFilestatGet (fd : Fd) (path : Address) (length : UInt32) (out : Address)
  | pathFilestatSetTimes (fd : Fd) (path : Address) (length : UInt32)
  | pathLink
  | pathOpen (fd : Fd) (path : Address) (length : UInt32) (flags fdflags : UInt16)
      (opened : Address)
  | pathReadlink (fd : Fd) (path : Address) (length : UInt32) (buffer : Address)
      (room : UInt32) (used : Address)
  | pathRemoveDirectory (fd : Fd) (path : Address) (length : UInt32)
  | pathRename (fd : Fd) (source : Address) (sourceLength : UInt32) (newFd : Fd)
      (target : Address) (targetLength : UInt32)
  | pathSymlink
  | pathUnlinkFile (fd : Fd) (path : Address) (length : UInt32)
  | pollOneoff (input output : Address) (count : UInt32) (nevents : Address)
  | procExit (code : Int32)
  | procRaise
  | schedYield
  deriving DecidableEq, Repr

/-- What becomes of the guest after a call that did not fail. -/
inductive Signal where
  | goOn
  | exit (code : Int32)
  | interrupt
  deriving DecidableEq, Repr, Inhabited

namespace Import

def moduleName : String := "wasi_snapshot_preview1"

def needsMemory : Import → Bool
  | fdAdvise .. | fdAllocate | fdClose .. | fdDatasync .. | fdFdstatSetFlags ..
  | fdFdstatSetRights .. | fdFilestatSetSize .. | fdFilestatSetTimes .. | fdRenumber ..
  | fdSync .. | pathLink | pathSymlink | procExit .. | procRaise | schedYield => false
  | _ => true

def allRights : Nat := 0x1fffffff

open GuestM in
def call : Import → GuestM Unit
  | argsGet table buffer => do
    putStrings table 0 buffer (← get).host.args
  | argsSizesGet count size => do
    putSizes count size (← get).host.args
  | environGet table buffer => do
    putStrings table 0 buffer (← get).host.env
  | environSizesGet count size => do
    putSizes count size (← get).host.env
  | clockResGet id out => do
    let resolution ← lookup fun _ => Host.clockResolution id
    put out 8 resolution.toNat
  | clockTimeGet id out => do
    let now ← lookup (·.clockTime id)
    put out 8 now.toNat
  | randomGet buffer length => do
    load (·.check buffer length.toNat)
    let bytes ← host (modifyGet (·.randomBytes length.toNat))
    putBytes buffer bytes
  | fdAdvise fd | fdDatasync fd | fdSync fd | fdFdstatSetRights fd | fdFilestatSetTimes fd =>
    lookup (·.fdCheck fd)
  | fdAllocate | pathLink | pathSymlink => throw (.errno .notsup)
  | fdClose fd => host (Host.fdClose fd)
  | fdFdstatGet fd out => do
    let (kind, append) ← lookup (·.fdFdstat fd)
    putBytes out (List.replicate 24 0)
    put out 1 kind.code.toNat
    put (out + 2) 2 append.toNat
    put (out + 8) 8 allRights
    put (out + 16) 8 allRights
  | fdFdstatSetFlags fd flags => host (Host.fdSetAppend fd (appendBit flags))
  | fdFilestatGet fd out => do
    let stat ← lookup (·.fdFilestat fd)
    putBytes out stat.encode
  | fdFilestatSetSize fd size => host (Host.fdSetSize fd size)
  | fdPread fd array count offset nread => do
    let capacity ← load (·.capacity array count)
    let data ← lookup (·.fdPread fd capacity offset)
    let placed ← scatter array count data
    put nread 4 placed
  | fdPrestatGet fd out => do
    let name ← lookup (·.fdPrestatName fd)
    putBytes out (List.replicate 8 0)
    put out 1 0
    put (out + 4) 4 (Utf8.encode name).length
  | fdPrestatDirName fd path length => do
    let name := Utf8.encode (← lookup (·.fdPrestatName fd))
    if length.toNat < name.length then throw (.errno .inval)
    putBytes path name
  | fdPwrite fd array count offset nwritten => do
    let data ← load (·.gather array count)
    let written ← host (Host.fdPwrite fd data offset)
    put nwritten 4 written
  | fdRead fd array count nread => do
    let capacity ← load (·.capacity array count)
    let data ← host (Host.fdRead fd capacity)
    let placed ← scatter array count data
    put nread 4 placed
  | fdReaddir fd buffer length cookie used => do
    let entries ← lookup (·.fdReaddir fd cookie length.toNat)
    let entries := entries.take length.toNat
    putBytes buffer entries
    put used 4 entries.length
  | fdRenumber fd target => host (Host.fdRenumber fd target)
  | fdSeek fd offset whence out => do
    let position ← host (Host.fdSeek fd offset whence)
    put out 8 position.toNat
  | fdTell fd out => do
    let position ← host (Host.fdSeek fd 0 1)
    put out 8 position.toNat
  | fdWrite fd array count nwritten => do
    let data ← load (·.gather array count)
    let written ← host (Host.fdWrite fd data)
    put nwritten 4 written
  | pathCreateDirectory fd path length => do
    let path ← text path length
    host (Host.pathCreateDirectory fd path)
  | pathFilestatGet fd path length out => do
    let path ← text path length
    let stat ← lookup (·.pathFilestat fd path)
    putBytes out stat.encode
  | pathFilestatSetTimes fd path length => do
    let path ← text path length
    lookup (·.pathTouch fd path)
  | pathOpen fd path length flags fdflags opened => do
    let path ← text path length
    let fd ← host (Host.pathOpen fd path (.ofBits flags) (appendBit fdflags))
    put opened 4 fd.toNat
  | pathReadlink fd path length buffer room used => do
    let path ← text path length
    let target ← lookup (·.pathReadlink fd path)
    let target := target.take room.toNat
    putBytes buffer target
    put used 4 target.length
  | pathRemoveDirectory fd path length => do
    let path ← text path length
    host (Host.pathRemoveDirectory fd path)
  | pathRename fd source sourceLength newFd target targetLength => do
    let source ← text source sourceLength
    let target ← text target targetLength
    host (Host.pathRename fd source newFd target)
  | pathUnlinkFile fd path length => do
    let path ← text path length
    host (Host.pathUnlinkFile fd path)
  | procRaise => throw (.errno .nosys)
  | pollOneoff .. | procExit _ | schedYield => return ()

open GuestM in
def pollCall (input output : Address) (count : UInt32) (nevents : Address) : GuestM Signal := do
  if count.toInt32 ≤ 0 then throw (.errno .inval)
  let wanted ← subscriptions input count
  match ← host (modifyGet (·.poll wanted)) with
  | none => return .interrupt
  | some events =>
    putEvents output 0 events
    put nevents 4 events.length
    return .goOn

def perform : Import → GuestM Signal
  | procExit code => return .exit code
  | pollOneoff input output count nevents => pollCall input output count nevents
  | i => do
    i.call
    return .goOn

/-- The import of a name, with arguments as words of 64 bits; shorter parameters take the low
bits. -/
def ofName? (name : String) (args : List UInt64) : Option Import :=
  let u64 (i : Nat) : UInt64 := args.getD i 0
  let u32 (i : Nat) : UInt32 := (u64 i).toUInt32
  let u16 (i : Nat) : UInt16 := (u64 i).toUInt16
  match name with
  | "args_get" => some (argsGet (u32 0) (u32 1))
  | "args_sizes_get" => some (argsSizesGet (u32 0) (u32 1))
  | "environ_get" => some (environGet (u32 0) (u32 1))
  | "environ_sizes_get" => some (environSizesGet (u32 0) (u32 1))
  | "clock_res_get" => some (clockResGet (u32 0) (u32 1))
  | "clock_time_get" => some (clockTimeGet (u32 0) (u32 2))
  | "random_get" => some (randomGet (u32 0) (u32 1))
  | "fd_advise" => some (fdAdvise (u32 0))
  | "fd_allocate" => some fdAllocate
  | "fd_close" => some (fdClose (u32 0))
  | "fd_datasync" => some (fdDatasync (u32 0))
  | "fd_sync" => some (fdSync (u32 0))
  | "fd_fdstat_get" => some (fdFdstatGet (u32 0) (u32 1))
  | "fd_fdstat_set_flags" => some (fdFdstatSetFlags (u32 0) (u16 1))
  | "fd_fdstat_set_rights" => some (fdFdstatSetRights (u32 0))
  | "fd_filestat_get" => some (fdFilestatGet (u32 0) (u32 1))
  | "fd_filestat_set_size" => some (fdFilestatSetSize (u32 0) (u64 1))
  | "fd_filestat_set_times" => some (fdFilestatSetTimes (u32 0))
  | "fd_pread" => some (fdPread (u32 0) (u32 1) (u32 2) (u64 3) (u32 4))
  | "fd_prestat_get" => some (fdPrestatGet (u32 0) (u32 1))
  | "fd_prestat_dir_name" => some (fdPrestatDirName (u32 0) (u32 1) (u32 2))
  | "fd_pwrite" => some (fdPwrite (u32 0) (u32 1) (u32 2) (u64 3) (u32 4))
  | "fd_read" => some (fdRead (u32 0) (u32 1) (u32 2) (u32 3))
  | "fd_readdir" => some (fdReaddir (u32 0) (u32 1) (u32 2) (u64 3) (u32 4))
  | "fd_renumber" => some (fdRenumber (u32 0) (u32 1))
  | "fd_seek" => some (fdSeek (u32 0) (u64 1).toInt64 (u64 2).toUInt8 (u32 3))
  | "fd_tell" => some (fdTell (u32 0) (u32 1))
  | "fd_write" => some (fdWrite (u32 0) (u32 1) (u32 2) (u32 3))
  | "path_create_directory" => some (pathCreateDirectory (u32 0) (u32 1) (u32 2))
  | "path_filestat_get" => some (pathFilestatGet (u32 0) (u32 2) (u32 3) (u32 4))
  | "path_filestat_set_times" => some (pathFilestatSetTimes (u32 0) (u32 2) (u32 3))
  | "path_link" => some pathLink
  | "path_open" => some (pathOpen (u32 0) (u32 2) (u32 3) (u16 4) (u16 7) (u32 8))
  | "path_readlink" => some (pathReadlink (u32 0) (u32 1) (u32 2) (u32 3) (u32 4) (u32 5))
  | "path_remove_directory" => some (pathRemoveDirectory (u32 0) (u32 1) (u32 2))
  | "path_rename" => some (pathRename (u32 0) (u32 1) (u32 2) (u32 3) (u32 4) (u32 5))
  | "path_symlink" => some pathSymlink
  | "path_unlink_file" => some (pathUnlinkFile (u32 0) (u32 1) (u32 2))
  | "poll_oneoff" => some (pollOneoff (u32 0) (u32 1) (u32 2) (u32 3))
  | "proc_exit" => some (procExit (u32 0).toInt32)
  | "proc_raise" => some procRaise
  | "sched_yield" => some schedYield
  | _ => none

end Import

end Buildbox
