import CodeExecutorApi.Machine.Runs
import CodeExecutorApi.Sessions.Manager
import CodeExecutorApi.Sessions.Registry
import CodeExecutorApi.Sessions.Steps
import CodeExecutorApi.Sessions.Coherence
import CodeExecutorApi.Machine.IdPool
import CodeExecutorApi.Sessions.Effects
import CodeExecutorApi.Sessions.ProjectIds
import CodeExecutorApi.Sessions.Slots
import CodeExecutorApi.Sessions.LockSoundness
import CodeExecutorApi.Sessions.IdleSweep
import CodeExecutorApi.Sessions.Creation
import CodeExecutorApi.Executor.Changes
import CodeExecutorApi.Machine.Program
import CodeExecutorApi.Python.Codec
import CodeExecutorApi.Python.PosixPath
import CodeExecutorApi.Validation
import CodeExecutorApi.Posix.Kernel
import CodeExecutorApi.Python.Os
import CodeExecutorApi.FileHelpers
import CodeExecutorApi.Sessions.Files
import CodeExecutorApi.Posix.Mount
import CodeExecutorApi.Sessions.Containment
import CodeExecutorApi.Posix.Change
import CodeExecutorApi.Posix.Leaves
import CodeExecutorApi.Python.Calls
import CodeExecutorApi.Python.Later
import CodeExecutorApi.Sessions.Places
import CodeExecutorApi.Sessions.Walks
import CodeExecutorApi.Sessions.Descent
import CodeExecutorApi.Routes.Files
import CodeExecutorApi.Sessions.Reading
import CodeExecutorApi.Sessions.Writing
import CodeExecutorApi.Sessions.Atomicity
import CodeExecutorApi.Routes.Answers
import CodeExecutorApi.Routes.FileMap
import CodeExecutorApi.Executor.Output
import CodeExecutorApi.Sessions.Recycling
import CodeExecutorApi.Machine.Semaphore
import CodeExecutorApi.Executor.Containers
import CodeExecutorApi.Machine.Worklist
import CodeExecutorApi.Posix.Listing
import CodeExecutorApi.Executor.Walk
import CodeExecutorApi.Routes.Execute
import CodeExecutorApi.Routes.Attribution
import CodeExecutorApi.Machine.Staging
import CodeExecutorApi.Sessions.Pending
import CodeExecutorApi.Routes.Staging
import CodeExecutorApi.Routes.Refusal
import CodeExecutorApi.Machine.Growth
import CodeExecutorApi.Sessions.Directories
import CodeExecutorApi.Routes.Entries
import CodeExecutorApi.SubPaths
import CodeExecutorApi.ContentDisposition
import CodeExecutorApi.Posix.Modes
import CodeExecutorApi.Executor.EntryPaths
import CodeExecutorApi.Executor.Addressing
import CodeExecutorApi.Posix.Owner
import CodeExecutorApi.Sessions.Removal
import CodeExecutorApi.Python.Numerals
import CodeExecutorApi.Sessions.Quota
import CodeExecutorApi.Sessions.Rollback
import CodeExecutorApi.Routes.Command
import CodeExecutorApi.Sessions.SweepPass
import CodeExecutorApi.Python.Descriptors
import CodeExecutorApi.Sessions.Descriptors
import CodeExecutorApi.Routes.Seeding
import CodeExecutorApi.Machine.Intake
import CodeExecutorApi.Readers
import CodeExecutorApi.Routes.PathFaults
import CodeExecutorApi.Routes.Agreement
import CodeExecutorApi.Routes.Serving
import CodeExecutorApi.Sessions.Queueing
import CodeExecutorApi.Sessions.Contents
import CodeExecutorApi.AppFactory
import CodeExecutorApi.Sessions.Leftovers
import CodeExecutorApi.Executor.Pty
import CodeExecutorApi.Routes.Browsing
import CodeExecutorApi.Sessions.HostPaths
import CodeExecutorApi.Routes.Mirror
import CodeExecutorApi.Executor.Queued
import CodeExecutorApi.Executor.Progress
import CodeExecutorApi.Executor.Simulation
