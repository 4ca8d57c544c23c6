import CFunc.Algo.DijkstraMatrix
import CFunc.Algo.DijkstraOrder
import CFunc.Algo.DijkstraRange
import CFunc.Algo.HeapSubtree
import CFunc.Algo.QuickSort
import CFunc.Clibs.ArgcArgv
import CFunc.Clibs.ListSwap
import CFunc.Clibs.MemMove
import CFunc.Clibs.PrintfBuffer
import CFunc.Clibs.PrintfPrints
import CFunc.Clibs.PrintfScan
import CFunc.Clibs.QueueIterate
import CFunc.Clibs.ShowDiff
import CFunc.Clibs.StrcpyEnds
import CFunc.Clibs.StringCase
import CFunc.Clibs.Strsep
import CFunc.Clibs.System
import CFunc.Clibs.TreeNames
import CFunc.EventLoop.CallbackHistory
import CFunc.EventLoop.LoopService
import CFunc.EventLoop.ReadcharStream
import CFunc.NandProg.BusTrace
import CFunc.NandProg.CheckMain
import CFunc.NandProg.Ecc
import CFunc.NandProg.ProgPartPorts
import CFunc.Networks.CommandReads
import CFunc.Networks.ConnectWifi
import CFunc.Networks.FifoStream
import CFunc.Networks.Interface
import CFunc.Networks.Publish
import CFunc.Networks.Requests
import CFunc.Networks.StringFields
import CFunc.Networks.Updates
import CFunc.Networks.WiFiCells
import CFunc.Pthread.DeadLockRuns
import CFunc.TimeInterface.NetTimerRuns
