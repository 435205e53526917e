import LeanRows.Records
import LeanRows.ScanRuns
import LeanRows.Source
import LeanRows.Index
import LeanRows.IndexRuns
import LeanRows.Session
import LeanRows.Viewport
import LeanRows.Projection
import LeanRows.RoundTrip
import LeanRows.Truncation
import LeanRows.Sort.Key
import LeanRows.Sort.Field
import LeanRows.Sort.Locate
import LeanRows.Sort.Extract
import LeanRows.Sort.Numeral
import LeanRows.Sort.Recognise
import LeanRows.Sort.Value
import LeanRows.Sort.Describe
import LeanRows.Sort.Order
import LeanRows.Sort.Compare
import LeanRows.Sort.Rows
import LeanRows.Engine.ReadCache
import LeanRows.Lib.Kmp
import LeanRows.Query.Literal
import LeanRows.Query.Scratch
import LeanRows.Query.Session
import LeanRows.Query.Frames
import LeanRows.Query.Hits
import LeanRows.Query.Runs
import LeanRows.Query.Integrity
import LeanRows.Query.Pages
import LeanRows.Query.Work
import LeanRows.Query.Progress
import LeanRows.Engine.Rows
import LeanRows.Engine.Document
import LeanRows.Engine.QuerySource
import LeanRows.Engine.Integrity
import LeanRows.Engine.Sorted
import LeanRows.Engine.Preview
import LeanRows.Lib.Utf16
import LeanRows.Lib.ExecState
import LeanRows.Lib.Threads
import LeanRows.Xlsx.Xml
import LeanRows.Xlsx.Text
import LeanRows.Xlsx.Content
import LeanRows.Xlsx.StartTag
import LeanRows.Xlsx.Zip
import LeanRows.Xlsx.Stream
import LeanRows.Xlsx.ZipSafety
import LeanRows.Xlsx.Sheet
import LeanRows.Xlsx.RowBounds
import LeanRows.Lib.ExecView
import LeanRows.Xlsx.SharedStrings
import LeanRows.Xlsx.SharedItems
import LeanRows.Worker.State
import LeanRows.Worker.Calls
import LeanRows.Worker.Document
import LeanRows.Worker.Permit
import LeanRows.Lib.Slots
import LeanRows.Sort.Storage
import LeanRows.Sort.Ledger
import LeanRows.Sort.Session
import LeanRows.Sort.Admission
import LeanRows.Lib.Remainder
import LeanRows.Xlsx.Checksum
import LeanRows.Xlsx.Checkpoints
import LeanRows.Lib.Thinning
import LeanRows.Xlsx.Calendar
import LeanRows.Win32.Window
import LeanRows.Win32.Scroll
import LeanRows.Win32.Zoom
import LeanRows.Win32.Layout
import LeanRows.Win32.Accessibility
import LeanRows.Lib.WordFile
import LeanRows.Sort.Inverse
import LeanRows.Sort.CountedMaps
import LeanRows.Lib.WinnerTree
import LeanRows.Sort.MergePass
import LeanRows.Sort.Batches
import LeanRows.Sort.CountedRuns
import LeanRows.Sort.Record
import LeanRows.Sort.Bounds
import LeanRows.Worker.CacheFiles
import LeanRows.Worker.Markers
import LeanRows.Worker.Recovery
import LeanRows.Worker.Loop
import LeanRows.Worker.Wakeup
import LeanRows.Worker.Asked
import LeanRows.Worker.Shown
import LeanRows.Sort.Descent
import LeanRows.Engine.Reads
import LeanRows.Worker.Contents
import LeanRows.Worker.Search
import LeanRows.Worker.Found
import LeanRows.Sort.Finished
import LeanRows.Sort.Maps
import LeanRows.Sort.Folders
